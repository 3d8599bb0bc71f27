import IncrementalBuild.Diagnostic.Basic
import IncrementalBuild.Json.Decoding
/-!
# Diagnostics in JSON

Each part of a diagnostic is written to JSON and read back.
-/
namespace IncrementalBuild

open Json (record texts)

def Severity.words : List (String × Severity) :=
  [("Note", .note), ("Warning", .warning), ("Error", .error)]

def Category.words : List (String × Category) :=
  [("Resolution", .resolution), ("Ordering", .ordering), ("Compiler", .compiler)]

def LabelStyle.words : List (String × LabelStyle) :=
  [("Primary", .primary), ("Secondary", .secondary)]

/-- The word for a value in a table of words. -/
def Json.ofChoice {α : Type} [BEq α] (words : List (String × α)) (a : α) : Json :=
  match words.find? (·.2 == a) with
  | some (word, _) => .string word.toList
  | none => .null

namespace Span

def toJson (s : Span) : Json :=
  record [("file", .nat s.file), ("start", .nat s.start), ("end", .nat s.stop)]

/-- Reads a span; its numbers have 32 bits. -/
def ofJson? (v : Json) : Option Span := do
  let [file, start, stop] ← v.fields? ["file", "start", "end"] | none
  return ⟨← file.natBelow? UInt32.size, ← start.natBelow? UInt32.size, ← stop.natBelow? UInt32.size⟩

end Span

namespace DiagnosticCode

def toJson (c : DiagnosticCode) : Json :=
  record [("category", Json.ofChoice Category.words c.category), ("number", .nat c.number)]

/-- Reads a code; its number has 16 bits. -/
def ofJson? (v : Json) : Option DiagnosticCode := do
  let [category, number] ← v.fields? ["category", "number"] | none
  return ⟨← category.choice? Category.words, ← number.natBelow? UInt16.size⟩

end DiagnosticCode

namespace Label

def toJson (l : Label) : Json :=
  record [("span", l.span.toJson), ("message", .string l.message),
    ("style", Json.ofChoice LabelStyle.words l.style)]

def ofJson? (v : Json) : Option Label := do
  let [span, message, style] ← v.fields? ["span", "message", "style"] | none
  return ⟨← Span.ofJson? span, ← message.text?, ← style.choice? LabelStyle.words⟩

end Label

namespace Diagnostic

def members (d : Diagnostic) : List (String × Json) :=
  [("severity", Json.ofChoice Severity.words d.severity), ("code", d.code.toJson),
    ("message", .string d.message), ("primary_span", d.span.toJson),
    ("labels", .array (d.labels.map Label.toJson)), ("notes", texts d.notes),
    ("help", texts d.help)]

def toJson (d : Diagnostic) : Json := record d.members

def ofJson? (v : Json) : Option Diagnostic := do
  let [severity, code, message, span, labels, notes, help] ← v.fields?
    ["severity", "code", "message", "primary_span", "labels", "notes", "help"] | none
  return {
    severity := ← severity.choice? Severity.words
    code := ← DiagnosticCode.ofJson? code
    message := ← message.text?
    span := ← Span.ofJson? span
    labels := ← labels.listOf? Label.ofJson?
    notes := ← notes.listOf? Json.text?
    help := ← help.listOf? Json.text? }

end Diagnostic

end IncrementalBuild
