import IncrementalBuild.Compile.Compiler
import IncrementalBuild.Diagnostic.Report
import IncrementalBuild.Output.Assembly
import IncrementalBuild.Session.Discovery
/-!
# Build sessions

A session stages sources and runs cycles. A cycle stages referenced files, commits, compiles,
assembles and emits. A cycle that fails changes nothing that is committed: the cache goes back to
the cycle before, and the outputs of completed cycles stay.
-/
namespace IncrementalBuild

structure CycleOutput where
  cycle : Nat
  changes : ChangeSet
  diagnostics : List Diagnostic
  assembly : Assembly
  stats : EmitStats
  deriving DecidableEq, Repr

def CycleOutput.hasErrors (o : CycleOutput) : Bool := o.diagnostics.any Diagnostic.isError

inductive SessionError where
  | configuration (e : ConfigError)
  | missingSource (path : Path) (reason : Text)
  | compile (e : CompileError)
  | emit (e : OutputError)
  deriving DecidableEq, Repr

def SessionError.message : SessionError → Text
  | configuration e => e.message
  | missingSource path reason =>
    "cannot read source file '".toList ++ path.text ++ "': ".toList ++ reason
  | compile e => e.message
  | emit e => e.message

/-- Whether a session has completed a cycle, and how many. -/
inductive Stage where
  | idle
  | cycled (cycles : Nat)
  deriving DecidableEq, Repr

/-- A session whose compiler has states of type `σ`: its configuration, the state of the compiler,
the sources, and the outputs of the last two completed cycles. -/
structure Session (σ : Type) where
  config : BuildConfiguration
  compilerState : σ
  cache : Cache
  current : Option CycleOutput
  previous : Option CycleOutput
  completed : Nat

namespace Session

variable {σ ο : Type}

def new (config : BuildConfiguration) (compilerState : σ) : Session σ :=
  ⟨config, compilerState, .empty, none, none, 0⟩

def stage (s : Session σ) : Stage :=
  if s.completed = 0 then .idle else .cycled s.completed

/-! ## Staging -/

/-- The paths of the configured files. -/
def resolveSources (loader : Loader) (s : Session σ) : Except SessionError (List Path) :=
  match resolveFiles loader.workingDirectory s.config.project.files s.config.baseDir with
  | .ok paths => .ok paths
  | .error e => .error (.configuration (.ofResolve e))

/-- The contents of paths, or the first path that cannot be read. -/
def readAll (loader : Loader) : List Path → Except SessionError (List (Path × Text))
  | [] => .ok []
  | p :: rest =>
    match loader.read p with
    | .error reason => .error (.missingSource p reason)
    | .ok content =>
      match readAll loader rest with
      | .error e => .error e
      | .ok more => .ok ((p, content) :: more)

def stageAll (c : Cache) (sources : List (Path × Text)) : Cache :=
  sources.foldl (fun c (p, content) => (c.stage p content).2) c

/-- Stages the configured files. Nothing is staged unless every file can be read. -/
def loadSources (loader : Loader) (s : Session σ) :
    Except SessionError (List Path) × Session σ :=
  match s.resolveSources loader with
  | .error e => (.error e, s)
  | .ok paths =>
    match readAll loader paths with
    | .error e => (.error e, s)
    | .ok sources => (.ok paths, { s with cache := stageAll s.cache sources })

def addSource (s : Session σ) (p : Path) (content : Text) : Staging × Session σ :=
  let (staging, cache) := s.cache.stage p content
  (staging, { s with cache })

/-! ## Cycles -/

/-- Compiles, assembles and emits the committed cycle. -/
def build (compiler : Compiler σ) (outlets : Outlets ο) (config : BuildConfiguration)
    (sources : Cache) (changes : ChangeSet) (found : DiagnosticLog) (state : σ) (o : ο) :
    Except SessionError CycleOutput × σ × ο :=
  match compiler.compile config sources changes state with
  | (.error e, state) => (.error (.compile e), state, o)
  | (.ok result, state) =>
    let assembly := Assembly.new sources config result
    let diagnostics := Diagnostic.sort sources (found.extend assembly.diagnostics).held
    match assembly.emit outlets o with
    | (.error e, o) => (.error (.emit e), state, o)
    | (.ok stats, o) =>
      (.ok { cycle := changes.cycle, changes, diagnostics, assembly, stats }, state, o)

/-- Runs a cycle. If it fails, the cache goes back to the cycle before. -/
def reset (compiler : Compiler σ) (loader : Loader) (outlets : Outlets ο) (s : Session σ)
    (o : ο) : Except SessionError CycleOutput × Session σ × ο :=
  let discovery := stageExternals loader s.config.settings.noExternalResolve s.cache
  let (changes, cache) := discovery.cache.reset
  match build compiler outlets s.config cache changes discovery.log s.compilerState o with
  | (.ok output, compilerState, o) =>
    (.ok output,
      { s with
        compilerState, cache
        current := some output
        previous := s.current
        completed := s.completed + 1 }, o)
  | (.error e, compilerState, o) =>
    (.error e, { s with compilerState, cache := cache.rollback.2 }, o)

def report (color : Bool) (s : Session σ) : Text :=
  match s.current with
  | some output => Diagnostic.report color s.cache output.diagnostics
  | none => []

/-- Forgets the files that the committed cycle does not have. -/
def prune (s : Session σ) : Nat × Session σ :=
  let (count, cache) := s.cache.prune (s.cache.files.map SourceFile.path)
  (count, { s with cache })

end Session

end IncrementalBuild
