import IncrementalBuild.Path.Normal
import IncrementalBuild.Source.Span
import IncrementalBuild.Text.Blank
/-!
# Headers

A source file starts with a header: blank lines, line comments and block comments. A line comment
of three slashes can hold a marker such as `/// <reference path="util.ts" />`, which says that the
file depends on another one. Markers after the header mean nothing.
-/
namespace IncrementalBuild

/-- A reference marker: the path between the quotes, the path it names as seen from the
directory of the file, and the span of the quoted text. -/
structure Reference where
  raw : Text
  path : Path
  span : Span
  deriving DecidableEq, Repr

namespace Header

/-- The characters that can enclose a path. -/
def quotes : Text := "\"'"

/-- The text after at least one blank and any further ones. -/
def afterBlanks? (t : Text) : Option Text :=
  if (t.head?.any Text.isBlank) then some (Text.trimStart t) else none

/-- The quoted path of a marker, given what follows the three slashes, and all that stands
before it. The attribute `path` comes first, and the marker is closed on the same line. -/
def markerPath? (t : Text) : Option (Text × Text) := do
  let tag ← Text.after? "<reference" (Text.trimStart t)
  let name ← afterBlanks? tag
  let equals ← Text.after? "path" name
  let opening ← Text.after? "=" (Text.trimStart equals)
  match Text.trimStart opening with
  | [] => none
  | quote :: value =>
    if quote ∈ quotes then
      let (raw, closing) ← Text.splitAt? [quote] value
      if raw = [] ∨ !Text.contains closing "/>" then none
      else some (t.take (t.length - value.length), raw)
    else none

/-- What a line says, given its text without the blanks around it. -/
inductive LineKind where
  | blank
  | tripleSlash (rest : Text)
  | comment
  | blockOpen (rest : Text)
  | code
  deriving DecidableEq, Repr

def lineKind : Text → LineKind
  | [] => .blank
  | '/' :: '/' :: '/' :: rest => .tripleSlash rest
  | '/' :: '/' :: _ => .comment
  | '/' :: '*' :: rest => .blockOpen rest
  | _ => .code

/-- Where the header stands after a line. -/
inductive Progress where
  | outside
  | inside
  | over
  deriving DecidableEq, Repr

/-- Where the header stands after the rest of a line that is inside a block comment. Text after
the end of the comment ends the header. -/
def afterBlock (rest : Text) : Progress :=
  match Text.splitAt? "*/" rest with
  | none => .inside
  | some (_, after) => if Text.allBlank after then .outside else .over

def progress (inBlock : Bool) (line : Text) : Progress :=
  if inBlock then afterBlock (Text.trim line)
  else match lineKind (Text.trim line) with
    | .blockOpen rest => afterBlock rest
    | .code => .over
    | _ => .outside

/-- The marker on a line that starts at byte `offset` of its file. -/
def reference? (file : FileId) (directory : Path) (offset : Nat) (line : Text) :
    Option Reference :=
  match lineKind (Text.trim line) with
  | .tripleSlash rest =>
    (markerPath? rest).map fun (lead, raw) =>
      let start := offset + Text.byteLength (Text.indent line) + 3 + Text.byteLength lead
      ⟨raw, directory.resolve ⟨raw⟩, .ofOffsets file start (start + Text.byteLength raw)⟩
  | _ => none

/-- The references on lines of a header, the first of which starts at byte `offset`. -/
def scan (file : FileId) (directory : Path) (inBlock : Bool) (offset : Nat) :
    List Text → List Reference
  | [] => []
  | line :: rest =>
    let here := if inBlock then none else reference? file directory offset line
    let next := offset + Text.byteLength line
    here.toList ++
      match progress inBlock line with
      | .outside => scan file directory false next rest
      | .inside => scan file directory true next rest
      | .over => []

/-- The references of a file's header, in the order of their lines. -/
def references (file : FileId) (path : Path) (content : Text) : List Reference :=
  scan file (path.parent?.getD ⟨[]⟩) false 0 (Text.linesInclusive content)

end Header

end IncrementalBuild
