import ConfigBlock.Report.Problem
import ConfigBlock.Source.Cursor

/-!
# Diagnostics

A diagnostic is a problem with its place and its severity. Reading goes on after a
warning; an error ends the line and with it the block.
-/

namespace ConfigBlock

inductive Severity where
  | warning
  | error
  deriving DecidableEq, Repr

namespace Severity

def text : Severity → String
  | .warning => "warning"
  | .error => "error"

end Severity

structure Diagnostic where
  problem : Problem
  line : Nat
  column : Nat
  severity : Severity
  deriving DecidableEq, Repr

namespace Diagnostic

/-- A problem reported at a position. The byte offset is not kept. -/
def located (p : Position) (problem : Problem) (severity : Severity) : Diagnostic :=
  ⟨problem, p.line, p.column, severity⟩

def isError (d : Diagnostic) : Bool := d.severity = .error

def isWarning (d : Diagnostic) : Bool := d.severity = .warning

def message (d : Diagnostic) : String := d.problem.message

/-- The one-line form that is shown to the user. -/
def text (d : Diagnostic) : String :=
  d.severity.text ++ " at line " ++ d.line.repr ++ ", column " ++ d.column.repr ++ ": " ++ d.message

end Diagnostic

namespace Cursor

def error (c : Cursor) (problem : Problem) : Diagnostic := .located c.position problem .error

def warning (c : Cursor) (problem : Problem) : Diagnostic := .located c.position problem .warning

end Cursor
end ConfigBlock
