import BlockLang.Diagnostic.Problem
import BlockLang.Source.Position

/-!
# Diagnostics

A diagnostic is a cause at a place with a severity and, possibly, further places
to look at. The diagnostics of a compilation are kept in the order of report.
-/

namespace BlockLang

/-- How bad a diagnostic is, mildest first. -/
inductive Severity where
  | nitpick
  | warning
  | error
  /-- Ends the compilation. -/
  | fatal
deriving DecidableEq, Inhabited

namespace Severity

def label : Severity → String
  | nitpick => "Nitpick"
  | warning => "Warning"
  | error => "Error"
  | fatal => "Fatal"

/-- Whether the program may not be used. -/
def isHard : Severity → Bool
  | nitpick | warning => false
  | error | fatal => true

end Severity

structure Diagnostic where
  problem : Problem
  position : Position
  severity : Severity
  notes : List Position
deriving DecidableEq, Inhabited

namespace Diagnostic

/-- An error without notes. -/
def error (problem : Problem) (position : Position) : Diagnostic :=
  ⟨problem, position, .error, []⟩

/-- An error that ends the compilation. -/
def fatal (problem : Problem) (position : Position) : Diagnostic :=
  ⟨problem, position, .fatal, []⟩

/-- The severity and the cause in one line. -/
def text (d : Diagnostic) : String := d.severity.label ++ ": " ++ d.problem.message

end Diagnostic

/-- Diagnostics in the order of report. -/
abbrev Report := List Diagnostic

/-- Number of diagnostics that make the program unusable. -/
def Report.errorCount (report : Report) : Nat := (report.filter (·.severity.isHard)).length

/-- The first diagnostic of the kind `name`. -/
def Report.find? (report : Report) (name : String) : Option Diagnostic :=
  List.find? (·.problem.name == name) report

end BlockLang
