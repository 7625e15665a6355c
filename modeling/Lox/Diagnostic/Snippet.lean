import Lox.Diagnostic
import Lox.Text.Line
import Lox.Text.WhiteSpace

/-!
# Snippets

A snippet shows a diagnostic against its source: the name of the cause with its tip, the headline,
and the source line without its indentation, with a caret under the column.  Line numbers stand in a
gutter that is as wide as the number, and its bars are one below the other.
-/

namespace Lox

namespace Diagnostic

/-- The name of the cause, with its tip in parentheses. -/
def heading (d : Diagnostic) : String :=
  match d.cause.tip? with
  | some tip => "Error: " ++ d.cause.name ++ " (" ++ tip ++ ")"
  | none => "Error: " ++ d.cause.name

/-- The bar of a line without a number. -/
def gutter (d : Diagnostic) : String :=
  String.ofList (List.replicate ((toString d.line).length + 1) ' ') ++ "|"

def numberedLine (d : Diagnostic) (text : String) : String :=
  toString d.line ++ " | " ++ String.ofList (Text.trim text.toList)

/-- Dashes up to a caret under column `column` of the line; under its first visible character if the
column lies in the indentation. -/
def caret (text : String) (column : Nat) : String :=
  String.ofList (List.replicate (column - Text.indent text.toList - 1) '-') ++ "^"

/-- The last line: the caret, if the line exists and the column is known. -/
def pointer (d : Diagnostic) (source : String) : String :=
  match sourceLine? source d.line, d.column with
  | some text, some column => d.gutter ++ " " ++ caret text column
  | _, _ => d.gutter

def snippetLines (d : Diagnostic) (source : String) : List String :=
  [d.heading, d.headline, d.gutter] ++ ((sourceLine? source d.line).map d.numberedLine).toList ++
    [d.pointer source]

def snippet (d : Diagnostic) (source : String) : String :=
  String.join ((d.snippetLines source).map (· ++ "\n"))

end Diagnostic

end Lox
