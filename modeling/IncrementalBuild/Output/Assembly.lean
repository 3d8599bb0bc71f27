import IncrementalBuild.Compile.Result
import IncrementalBuild.Output.Layout
import IncrementalBuild.Output.Outlet
import IncrementalBuild.Reference.Order
/-!
# Assembling outputs

The artifacts of a cycle are put in order and made into output files: one or two for each source,
or one bundle of each stream. Emitting pushes the files in order until one fails, and then ends
both streams in every case.
-/
namespace IncrementalBuild

structure Assembly where
  artifacts : List Artifact
  layout : OutputLayout
  bundle : Option (Path × Path)
  cycles : List ReferenceCycle
  diagnostics : List Diagnostic
  deriving DecidableEq, Repr

/-- The number of files pushed to each stream. -/
structure EmitStats where
  codeFiles : Nat
  declarationFiles : Nat
  deriving DecidableEq, Repr

def EmitStats.total (s : EmitStats) : Nat := s.codeFiles + s.declarationFiles

namespace Assembly

/-- The artifacts of sources in order, and the ones left over. -/
def pick : List Path → List Artifact → List Artifact × List Artifact
  | [], rest => ([], rest)
  | p :: more, rest =>
    match rest.find? (·.source.same p) with
    | none => pick more rest
    | some a =>
      let (picked, left) := pick more (rest.filter (!·.source.same p))
      (a :: picked, left)

/-- The order of the files of a cycle. References matter for a bundle and for sorted output. -/
def orderOf (sources : Cache) (config : BuildConfiguration) : OutputOrder :=
  if config.singleOutput || config.settings.sortOutput then
    (ReferenceGraph.build sources).order config.settings.ordering
  else ⟨sources.files.map SourceFile.id, []⟩

/-- Puts the artifacts of a result in order. Those of files outside the cycle come last. -/
def new (sources : Cache) (config : BuildConfiguration) (result : CompileResult) : Assembly :=
  let layout := OutputLayout.ofConfiguration config
  let order := orderOf sources config
  let paths := (order.files.filterMap sources.file?).map SourceFile.path
  let (picked, left) := pick paths result.artifacts
  { artifacts := picked ++ left
    layout
    bundle := layout.bundlePaths
    cycles := order.cycles
    diagnostics := result.diagnostics ++ order.cycles.map ReferenceCycle.diagnostic }

def artifact? (a : Assembly) (source : Path) : Option Artifact :=
  a.artifacts.find? (·.source.same source)

def order (a : Assembly) : List Path := a.artifacts.map Artifact.source

/-- The part of an artifact that goes to a stream. -/
def fragment? (kind : OutputKind) (a : Artifact) : Option Text :=
  match kind with
  | .code => a.code
  | .declaration => a.declaration

/-- The output files of one artifact. -/
def fileOutputs (layout : OutputLayout) (a : Artifact) : List OutputFile :=
  (a.code.map fun t => ⟨layout.codePath a.source, some a.source, .code, t⟩).toList ++
    (a.declaration.map fun t =>
      ⟨layout.declarationPath a.source, some a.source, .declaration, t⟩).toList

/-- A fragment with a newline at the end, unless it is empty. -/
def terminated (t : Text) : Text :=
  if t ≠ [] ∧ t.getLast? ≠ some '\n' then t ++ ['\n'] else t

/-- The bundle of a stream, if some artifact adds to it. -/
def bundleOutput (artifacts : List Artifact) (path : Path) (kind : OutputKind) :
    Option OutputFile :=
  match artifacts.filterMap (fragment? kind) with
  | [] => none
  | fragments => some ⟨path, none, kind, fragments.flatMap terminated⟩

/-- The output files, in the order of emission. -/
def outputs (a : Assembly) : List OutputFile :=
  match a.bundle with
  | none => a.artifacts.flatMap (fileOutputs a.layout)
  | some (code, declaration) =>
    (bundleOutput a.artifacts code .code).toList ++
      (bundleOutput a.artifacts declaration .declaration).toList

def count (stats : EmitStats) : OutputKind → EmitStats
  | .code => { stats with codeFiles := stats.codeFiles + 1 }
  | .declaration => { stats with declarationFiles := stats.declarationFiles + 1 }

/-- Pushes files until one fails. -/
def pushAll {σ : Type} (outlets : Outlets σ) (stats : EmitStats) :
    List OutputFile → σ → Except OutputError EmitStats × σ
  | [], s => (.ok stats, s)
  | file :: rest, s =>
    match outlets.push file.kind file s with
    | (.error reason, s) => (.error ⟨file.kind, reason⟩, s)
    | (.ok (), s) => pushAll outlets (count stats file.kind) rest s

/-- Pushes every output and ends both streams. The earliest failure is the error. -/
def emit {σ : Type} (a : Assembly) (outlets : Outlets σ) (s : σ) :
    Except OutputError EmitStats × σ :=
  let (pushed, s) := pushAll outlets ⟨0, 0⟩ a.outputs s
  let (codeEnd, s) := outlets.finish .code s
  let (declarationEnd, s) := outlets.finish .declaration s
  match pushed, codeEnd, declarationEnd with
  | .error e, _, _ => (.error e, s)
  | .ok _, .error reason, _ => (.error ⟨.code, reason⟩, s)
  | .ok _, .ok (), .error reason => (.error ⟨.declaration, reason⟩, s)
  | .ok stats, .ok (), .ok () => (.ok stats, s)

end Assembly

end IncrementalBuild
