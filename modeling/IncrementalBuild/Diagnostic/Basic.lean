import IncrementalBuild.Source.Span
/-!
# Diagnostics

A diagnostic says what is wrong, how bad it is and where. Its code has a letter for the part of
the build that found it and a number of at least three digits.
-/
namespace IncrementalBuild

/-- How bad it is, from the mildest. -/
inductive Severity where
  | note
  | warning
  | error
  deriving DecidableEq, Repr

namespace Severity

/-- The place in the order of severities. -/
def rank : Severity → Nat
  | note => 0
  | warning => 1
  | error => 2

def text : Severity → Text
  | note => "note"
  | warning => "warning"
  | error => "error"

def color : Severity → Text
  | note => "36"
  | warning => "33"
  | error => "31"

def isError (s : Severity) : Bool := s == error

def all : List Severity := [note, warning, error]

end Severity

/-- The part of a build that finds a fault. -/
inductive Category where
  | resolution
  | ordering
  | compiler
  deriving DecidableEq, Repr

def Category.letter : Category → Char
  | resolution => 'R'
  | ordering => 'O'
  | compiler => 'C'

/-- The code of a kind of fault. -/
structure DiagnosticCode where
  category : Category
  number : Nat
  deriving DecidableEq, Repr

namespace DiagnosticCode

def text (c : DiagnosticCode) : Text :=
  let digits := Text.ofNat c.number
  c.category.letter :: List.replicate (3 - digits.length) '0' ++ digits

/-- A referenced file cannot be read. -/
def missingReference : DiagnosticCode := ⟨.resolution, 1⟩

/-- A referenced file is not one of the project's own. -/
def unresolvedExternal : DiagnosticCode := ⟨.resolution, 2⟩

/-- Files refer to each other in a circle. -/
def cyclicReference : DiagnosticCode := ⟨.ordering, 1⟩

/-- A line was left by an unfinished merge. -/
def conflictMarker : DiagnosticCode := ⟨.compiler, 1⟩

/-- The codes about references. -/
def known : List DiagnosticCode := [missingReference, unresolvedExternal, cyclicReference]

end DiagnosticCode

/-- Whether a label marks the place of the fault or a place that belongs to it. -/
inductive LabelStyle where
  | primary
  | secondary
  deriving DecidableEq, Repr

/-- A place in a source file with a remark. -/
structure Label where
  span : Span
  message : Text
  style : LabelStyle
  deriving DecidableEq, Repr

structure Diagnostic where
  severity : Severity
  code : DiagnosticCode
  message : Text
  span : Span
  labels : List Label
  notes : List Text
  help : List Text
  deriving DecidableEq, Repr

namespace Diagnostic

def warning (code : DiagnosticCode) (message : Text) (span : Span) : Diagnostic :=
  ⟨.warning, code, message, span, [], [], []⟩

def error (code : DiagnosticCode) (message : Text) (span : Span) : Diagnostic :=
  ⟨.error, code, message, span, [], [], []⟩

def isError (d : Diagnostic) : Bool := d.severity.isError

end Diagnostic

end IncrementalBuild
