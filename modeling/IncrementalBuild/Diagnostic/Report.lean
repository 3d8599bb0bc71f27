import IncrementalBuild.Diagnostic.Basic
import IncrementalBuild.Diagnostic.Excerpt
/-!
# Reports

How diagnostics are shown and in which order. A diagnostic with a place in a known file comes
with its location and an excerpt; its remaining labels, notes and help follow, one a line.
-/
namespace IncrementalBuild

namespace Diagnostic

/-- The word for a severity, in its color if colors are on. -/
def severityText (color : Bool) (s : Severity) : Text :=
  if color then
    "\x1b[1;".toList ++ s.color ++ "m".toList ++ s.text ++ "\x1b[0m".toList
  else s.text

/-- The remark of the first primary label. -/
def remark (d : Diagnostic) : Text :=
  match d.labels.find? (·.style = .primary) with
  | some l => ' ' :: l.message
  | none => []

/-- The location and the excerpt, if the file of the diagnostic is known. -/
def place (d : Diagnostic) (sources : Cache) : Text :=
  if d.span.isDummy then []
  else match sources.file? d.span.file with
    | none => []
    | some f =>
      "  --> ".toList ++ (f.locate d.span).text ++ "\n".toList ++
        (Excerpt.ofSpan f d.span).text d.remark

def labelText (sources : Cache) (l : Label) : Text :=
  match sources.locate? l.span with
  | some location => "   - ".toList ++ location.text ++ ": ".toList ++ l.message ++ "\n".toList
  | none => "   - ".toList ++ l.message ++ "\n".toList

/-- A diagnostic as it is shown, against the files it points into. -/
def render (color : Bool) (sources : Cache) (d : Diagnostic) : Text :=
  severityText color d.severity ++ "[".toList ++ d.code.text ++ "]: ".toList ++ d.message ++
    "\n".toList ++ d.place sources ++
    (d.labels.filter (·.style = .secondary)).flatMap (labelText sources) ++
    d.notes.flatMap (fun n => "   = note: ".toList ++ n ++ "\n".toList) ++
    d.help.flatMap (fun h => "   = help: ".toList ++ h ++ "\n".toList)

/-- Diagnostics as they are shown one after the other, each followed by an empty line. -/
def report (color : Bool) (sources : Cache) (ds : List Diagnostic) : Text :=
  ds.flatMap fun d => d.render color sources ++ "\n".toList

/-! ## Order -/

/-- Whether a list of numbers comes before another or equals it, by the first difference. -/
def keyLe : List Nat → List Nat → Bool
  | [], _ => true
  | _ :: _, [] => false
  | a :: as, b :: bs => a < b || (a == b && keyLe as bs)

/-- The key by which diagnostics are sorted: those without a place first, then by the place of
the file in the cycle, files outside the cycle last and by id, then by the start of the span. -/
def sortKey (sources : Cache) (d : Diagnostic) : List Nat :=
  if d.span.isDummy then [0]
  else match sources.position? d.span.file with
    | some rank => [1, 0, rank, d.span.file, d.span.start]
    | none => [1, 1, 0, d.span.file, d.span.start]

/-- Diagnostics in order; those with one key keep the order they have. -/
def sort (sources : Cache) (ds : List Diagnostic) : List Diagnostic :=
  ds.mergeSort fun d e => keyLe (d.sortKey sources) (e.sortKey sources)

end Diagnostic

end IncrementalBuild
