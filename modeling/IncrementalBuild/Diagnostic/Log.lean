import IncrementalBuild.Diagnostic.Basic
/-!
# Diagnostic logs

A log collects the diagnostics of a cycle. It counts every error that was ever emitted, also when
its diagnostics have been taken out.
-/
namespace IncrementalBuild

/-- The diagnostics held, in the order they came, and the number of errors so far. -/
structure DiagnosticLog where
  held : List Diagnostic
  errorCount : Nat
  deriving DecidableEq, Repr

namespace DiagnosticLog

def empty : DiagnosticLog := ⟨[], 0⟩

def emit (log : DiagnosticLog) (d : Diagnostic) : DiagnosticLog :=
  ⟨log.held ++ [d], if d.isError then log.errorCount + 1 else log.errorCount⟩

def extend (log : DiagnosticLog) (ds : List Diagnostic) : DiagnosticLog := ds.foldl emit log

/-- Whether an error was ever emitted. -/
def hasErrors (log : DiagnosticLog) : Bool := 0 < log.errorCount

/-- Takes all diagnostics out. -/
def takeAll (log : DiagnosticLog) : List Diagnostic × DiagnosticLog :=
  (log.held, { log with held := [] })

theorem extend_held (log : DiagnosticLog) (ds : List Diagnostic) :
    (log.extend ds).held = log.held ++ ds := by
  induction ds generalizing log with
  | nil => simp [extend]
  | cons d ds ih => simpa [extend, emit] using ih (log.emit d)

end DiagnosticLog

end IncrementalBuild
