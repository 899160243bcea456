import SolSyntax.ErrorCode
import SolSyntax.Span

/-!
# Diagnostics

A diagnostic is a problem to report: a code, a message, labelled spans, notes, and for syntax
errors what would have been accepted and what stood there instead.
-/

namespace SolSyntax

inductive Severity where
  | error
  | warning
  | note
  deriving DecidableEq, Repr

def Severity.text : Severity → String
  | error => "error"
  | warning => "warning"
  | note => "note"

/-- A span with an explanation. -/
structure Label where
  span : Span
  message : String
  isPrimary : Bool
  deriving DecidableEq, Repr

structure Diagnostic where
  code : ErrorCode
  severity : Severity
  message : String
  labels : List Label
  notes : List String
  /-- What would have been accepted, by name. -/
  expected : List String
  /-- What stood there, by name. -/
  found : Option String
  deriving DecidableEq, Repr

namespace Diagnostic

/-- The span of the first primary label. -/
def primarySpan? (d : Diagnostic) : Option Span := (d.labels.find? Label.isPrimary).map Label.span

def isError (d : Diagnostic) : Bool := d.severity == .error

/-- What would have been accepted, as a phrase. -/
def expectedSummary? (d : Diagnostic) : Option String :=
  match d.expected with
  | [] => none
  | [only] => some only
  | many => some ("one of " ++ ", ".intercalate many)

/-- Severity, code and message in one line. -/
def text (d : Diagnostic) : String := s!"{d.severity.text}[{d.code.text}]: {d.message}"

end Diagnostic

end SolSyntax
