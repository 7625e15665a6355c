import Lox.Diagnostic

/-!
# Reports

A report collects diagnostics, in the order in which they come in, and raises a flag with the first
of them.  Both last until the report is reset.
-/

namespace Lox

structure Report where
  diagnostics : List Diagnostic := []
  flagged : Bool := false
deriving DecidableEq

namespace Report

def empty : Report := {}

def push (r : Report) (d : Diagnostic) : Report :=
  ⟨r.diagnostics ++ [d], true⟩

/-- Takes over a list of diagnostics, one after the other. -/
def absorb (r : Report) (ds : List Diagnostic) : Report :=
  ds.foldl push r

/-- Adds a message of the caller's, with a description of the place that is used as it stands. -/
def remark (r : Report) (line : UInt32) (place message : String) : Report :=
  let location := if place = "" then Location.unstated else .verbatim place
  r.push ⟨.reported message, line, none, location⟩

def reset (_ : Report) : Report := empty

theorem absorb_diagnostics (r : Report) (ds : List Diagnostic) :
    (r.absorb ds).diagnostics = r.diagnostics ++ ds := by
  induction ds generalizing r with
  | nil => simp [absorb]
  | cons d ds ih => exact (ih (r.push d)).trans (by simp [push])

theorem absorb_flagged (r : Report) (ds : List Diagnostic) :
    (r.absorb ds).flagged = (r.flagged || !ds.isEmpty) := by
  induction ds generalizing r with
  | nil => simp [absorb]
  | cons d ds ih => exact (ih (r.push d)).trans (by simp [push])

end Report

/-- The exit code of a command whose input contained errors. -/
def dataErrorExitCode : Nat := 65

end Lox
