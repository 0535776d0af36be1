import WichToC.Text.Span

/-!
# Diagnostics

What the phases report: a kind with its code, a severity, a message, the span it is about (none for
a remark on the program as a whole) and sometimes a suggestion.  A report collects diagnostics in
the order in which they arise and remembers the source text that their spans refer to.
-/

namespace WichToC

variable (d : Diagnostic)

inductive DiagnosticKind where
  | parseError
  | symbolNotFound
  | symbolRedefinition
  | forwardReference
  | incompatibleTypes
  | incompatibleArgument
  | argumentCount
  | invalidOperation
  | unknownTarget
  | modelMismatch
deriving DecidableEq, Repr

namespace DiagnosticKind

/-- The code that is shown with a diagnostic. -/
def code : DiagnosticKind → String
  | parseError => "ERR-SYN-001"
  | symbolNotFound => "ERR-SEM-101"
  | symbolRedefinition => "ERR-SEM-102"
  | forwardReference => "ERR-SEM-103"
  | incompatibleTypes => "ERR-TYP-201"
  | incompatibleArgument => "ERR-TYP-202"
  | argumentCount => "ERR-TYP-203"
  | invalidOperation => "ERR-TYP-204"
  | unknownTarget => "ERR-DRV-301"
  | modelMismatch => "WARN-GEN-401"

end DiagnosticKind

/-- Whether a diagnostic forbids to generate code. -/
inductive Severity where
  | error
  | warning
deriving DecidableEq, Repr

structure Diagnostic where
  kind : DiagnosticKind
  message : String
  span : Option Span
  suggestion : Option String := none
  severity : Severity := .error
deriving DecidableEq, Repr

namespace Diagnostic

def isError : Bool := d.severity = .error

def isWarning : Bool := d.severity = .warning

end Diagnostic

/-- Diagnostics in the order in which they arose, and the text that their spans refer to. -/
structure Report where
  source : Option String := none
  diagnostics : List Diagnostic := []
deriving DecidableEq, Repr

namespace Report

variable (report : Report)

/-- The report on a text, with nothing reported yet. -/
def on (source : String) : Report := { source := some source }

def add : Report :=
  { report with diagnostics := report.diagnostics ++ [d] }

def addAll (ds : List Diagnostic) : Report :=
  { report with diagnostics := report.diagnostics ++ ds }

/-- The position of the end of the text, zero without a text. -/
def endPosition : Nat :=
  (report.source.map fun s => Text.byteLength s.toList).getD 0

def errors : List Diagnostic :=
  report.diagnostics.filter Diagnostic.isError

def warnings : List Diagnostic :=
  report.diagnostics.filter Diagnostic.isWarning

/-- The number of errors. -/
def errorCount : Nat := report.errors.length

def hasErrors : Bool := 0 < report.errorCount

def errorKinds : List DiagnosticKind :=
  report.errors.map Diagnostic.kind

end Report

end WichToC
