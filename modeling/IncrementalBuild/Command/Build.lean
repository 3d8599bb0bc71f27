import IncrementalBuild.Command.ProjectFile
import IncrementalBuild.Compile.PassThrough
import IncrementalBuild.Diagnostic.Json
import IncrementalBuild.Session.Basic
/-!
# Building a project

One cycle of a session over a file tree. Outputs are written to the tree, or kept in memory in a
dry run; either way the outcome names their paths, those of code first. Reports go to the error
stream as text, or to the output stream as JSON.
-/
namespace IncrementalBuild

/-- What a command shows, and its exit code. -/
structure Outcome where
  exitCode : Nat
  output : Text
  errors : Text
  deriving DecidableEq, Repr

def Outcome.failure (shown reason : Text) : Outcome :=
  ⟨1, [], shown ++ "error: ".toList ++ reason ++ "\n".toList⟩

/-- A file tree that outputs go to, and the paths of the outputs in each stream. -/
structure Emission where
  tree : FileTree
  code : List Path
  declarations : List Path
  deriving DecidableEq, Repr

namespace Emission

def note (e : Emission) (kind : OutputKind) (p : Path) : Emission :=
  match kind with
  | .code => { e with code := e.code ++ [p] }
  | .declaration => { e with declarations := e.declarations ++ [p] }

def paths (e : Emission) : List Path := e.code ++ e.declarations

/-- Outlets that write the files. -/
def writing : Outlets Emission where
  push kind file e :=
    match e.tree.attempt file.path file.contents with
    | (.ok (), tree) => (.ok (), { e with tree }.note kind file.path)
    | (.error reason, tree) => (.error reason.message, { e with tree })
  finish _ e := (.ok (), e)

end Emission

namespace Build

/-- The session for a project whose sources are loaded, and how many there are. -/
def prepare (env : Environment) (i : Invocation) (t : FileTree) :
    Except Text (Nat × Session Memo) :=
  match ProjectFile.configuration env i.project? t with
  | .error reason => .error reason
  | .ok config =>
    let session := Session.new (config.withSettings (i.override config.settings)) Memo.empty
    match session.loadSources (t.loader env.workingDirectory) with
    | (.error e, _) => .error e.message
    | (.ok sources, session) => .ok (sources.length, session)

def cycle {σ : Type} (env : Environment) (session : Session Memo) (t : FileTree)
    (outlets : Outlets σ) (s : σ) : Except SessionError CycleOutput × Session Memo × σ :=
  session.reset PassThrough.compiler (t.loader env.workingDirectory) outlets s

/-- Runs the cycle of a session and writes its outputs to the tree. -/
def write (env : Environment) (session : Session Memo) (t : FileTree) :
    Except SessionError CycleOutput × Session Memo × Emission :=
  cycle env session t Emission.writing ⟨t, [], []⟩

/-- Runs the cycle of a session and keeps its outputs in memory. -/
def rehearse (env : Environment) (session : Session Memo) (t : FileTree) :
    Except SessionError CycleOutput × Session Memo × Emission :=
  let (answer, session, code, declarations) :=
    cycle env session t (.pair Shelf.outlet Shelf.outlet) (.empty, .empty)
  (answer, session, ⟨t, code.paths, declarations.paths⟩)

/-! ## Reports -/

def banner (sources : Nat) : Text :=
  "   Building ".toList ++ Text.ofNat sources ++ " source file(s)\n".toList

def count (s : Severity) (ds : List Diagnostic) : Nat := (ds.filter (·.severity = s)).length

def summary (o : CycleOutput) : Text :=
  "   Result: ".toList ++ Text.ofNat o.changes.dirtyCount ++ " changed, ".toList ++
    Text.ofNat o.stats.total ++ " output(s), ".toList ++
    Text.ofNat (count .error o.diagnostics) ++ " error(s), ".toList ++
    Text.ofNat (count .warning o.diagnostics) ++ " warning(s)\n".toList

def outputLine (dryRun : Bool) (p : Path) : Text :=
  (if dryRun then "   Would write ".toList else "   Wrote ".toList) ++ p.text ++ "\n".toList

def textReport (env : Environment) (i : Invocation) (session : Session Memo)
    (o : CycleOutput) (paths : List Path) : Text :=
  session.report (i.coloring.isOn env.defined) ++
    if i.quiet then [] else paths.flatMap (outputLine i.dryRun) ++ summary o

def diagnosticJson (sources : Cache) (d : Diagnostic) : Json :=
  let location := match sources.locate? d.span with
    | some l => .string l.text
    | none => .null
  .record (d.members ++ [("location", location)])

def jsonReport (i : Invocation) (session : Session Memo) (o : CycleOutput)
    (paths : List Path) : Json :=
  .record [("cycle", .nat o.cycle), ("dry_run", .bool i.dryRun),
    ("outputs", .texts (paths.map Path.text)),
    ("stats", .record [("code_files", .nat o.stats.codeFiles),
      ("declaration_files", .nat o.stats.declarationFiles)]),
    ("diagnostics", .array (o.diagnostics.map (diagnosticJson session.cache)))]

/-- The outcome of a completed cycle, after what was shown before it. -/
def outcome (env : Environment) (i : Invocation) (shown : Text) (session : Session Memo)
    (o : CycleOutput) (paths : List Path) : Outcome :=
  let exitCode := if o.hasErrors then 1 else 0
  match i.format with
  | .text => ⟨exitCode, [], shown ++ textReport env i session o paths⟩
  | .json => ⟨exitCode, Json.indented 0 (jsonReport i session o paths) ++ "\n".toList, shown⟩

/-- Builds the project of a file tree. -/
def run (env : Environment) (i : Invocation) (t : FileTree) : Outcome × FileTree :=
  match prepare env i t with
  | .error reason => (.failure [] reason, t)
  | .ok (sources, session) =>
    let shown := if i.quiet || i.format = .json then [] else banner sources
    match if i.dryRun then rehearse env session t else write env session t with
    | (.error e, _, emission) => (.failure shown e.message, emission.tree)
    | (.ok o, session, emission) =>
      (outcome env i shown session o emission.paths, emission.tree)

end Build

end IncrementalBuild
