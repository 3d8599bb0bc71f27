import IncrementalBuild.Compile.Compiler
import IncrementalBuild.Compile.Target
/-!
# The pass-through compiler

The code of a source file is its content. Its declarations are its references and its lines that
export or declare something. The compiler remembers what it made of each file, and looks again at
a file only if it changed or the memory does not fit.
-/
namespace IncrementalBuild

/-- What was made of a file: of which file, of which content, and with declarations or not. -/
structure Analysis where
  id : FileId
  hash : ContentHash
  withDeclaration : Bool
  artifact : Artifact
  diagnostics : List Diagnostic
  deriving DecidableEq, Repr

/-- The memory of the compiler: an analysis a path, and the paths it looked at last. -/
structure Memo where
  analyses : List (Path × Analysis)
  analyzed : List Path
  deriving DecidableEq, Repr

namespace Memo

def empty : Memo := ⟨[], []⟩

def get? (m : Memo) (p : Path) : Option Analysis := (m.analyses.find? (·.1 == p)).map (·.2)

/-- Remembers an analysis that was just made, in place of an earlier one of its path. -/
def learn (m : Memo) (p : Path) (a : Analysis) : Memo :=
  ⟨(p, a) :: m.analyses.filter (·.1 != p), m.analyzed ++ [p]⟩

end Memo

namespace PassThrough

/-- The characters at the start of a line that an unfinished merge leaves. -/
def conflictMarker : Text := "<<<<<<<"

/-- A warning for each line that starts with a conflict marker, from byte `offset` on. -/
def conflicts (file : FileId) (offset : Nat) : List Text → List Diagnostic
  | [] => []
  | line :: rest =>
    let more := conflicts file (offset + Text.byteLength line) rest
    if (Text.after? conflictMarker line).isSome then
      let span : Span := .ofOffsets file offset (offset + Text.byteLength conflictMarker)
      { Diagnostic.warning .conflictMarker "merge conflict marker" span with
        help := ["resolve the conflict before building"] } :: more
    else more

/-- A reference as it is written in declarations. -/
def referenceLine (r : Reference) : Text :=
  "/// <reference path=\"".toList ++ r.raw ++ "\" />\n".toList

/-- Whether a line exports or declares something. -/
def isDeclarationLine (line : Text) : Bool :=
  let body := Text.trimStart line
  (Text.after? "export " body).isSome || (Text.after? "declare " body).isSome

def declarationText (f : SourceFile) : Text :=
  f.references.flatMap referenceLine ++
    ((Text.lines f.content).filter isDeclarationLine).flatMap fun line =>
      Text.trimEnd line ++ ['\n']

/-- The artifact of a file. Nothing is made of a declaration file. -/
def artifact (f : SourceFile) (withDeclaration : Bool) : Artifact :=
  if f.isDeclaration then Artifact.none f.path
  else ⟨f.path, some f.content, if withDeclaration then some (declarationText f) else none⟩

def analyze (f : SourceFile) (withDeclaration : Bool) : Analysis :=
  { id := f.id
    hash := f.hash
    withDeclaration
    artifact := artifact f withDeclaration
    diagnostics := conflicts f.id 0 (Text.linesInclusive f.content) }

/-- Whether an analysis is one of this file with this content. -/
def fits (a : Analysis) (f : SourceFile) (withDeclaration : Bool) : Bool :=
  a.id == f.id && a.hash == f.hash && a.withDeclaration == withDeclaration

/-- The analysis of a file, remembered or made. -/
def consult (changes : ChangeSet) (withDeclaration : Bool) (m : Memo) (f : SourceFile) :
    Analysis × Memo :=
  let known := if changes.contains f.path then none
    else (m.get? f.path).filter (fits · f withDeclaration)
  match known with
  | some a => (a, m)
  | none =>
    let a := analyze f withDeclaration
    (a, m.learn f.path a)

def consultAll (changes : ChangeSet) (withDeclaration : Bool) (m : Memo) :
    List SourceFile → List Analysis × Memo
  | [] => ([], m)
  | f :: rest =>
    let (a, m) := consult changes withDeclaration m f
    let (more, m) := consultAll changes withDeclaration m rest
    (a :: more, m)

/-- The result that analyses add up to. -/
def collect (analyses : List Analysis) : CompileResult :=
  analyses.foldl (fun r a => (r.insert a.artifact).report a.diagnostics) .empty

/-- Compiles the committed cycle. An unknown target is refused before anything else happens. -/
def compile (config : BuildConfiguration) (sources : Cache) (changes : ChangeSet) (m : Memo) :
    Except CompileError CompileResult × Memo :=
  match Compile.targetFault? config.options.target with
  | some e => (.error e, m)
  | none =>
    let (analyses, m) :=
      consultAll changes config.options.declaration { m with analyzed := [] } sources.files
    (.ok (collect analyses),
      { m with analyses := m.analyses.filter fun (p, _) => sources.contains p })

def compiler : Compiler Memo := ⟨"identity", compile⟩

end PassThrough

end IncrementalBuild
