import IncrementalBuild.Command.Build
/-!
# Looking around

A run works on a file tree that is known in advance. This module says which paths a run looks at,
as far as the tree is known. A tree that knows all of them shows the run what the disk would.
-/
namespace IncrementalBuild.Command

/-- The paths where a project file can be. -/
def projectLookups (env : Environment) (i : Invocation) : List Path :=
  match i.project? with
  | some project =>
    let path := env.workingDirectory.join project
    [path, path.join ⟨ProjectFile.name⟩]
  | none => ProjectFile.around env.workingDirectory.components.reverse

def sourceLookups (env : Environment) (i : Invocation) (t : FileTree) : List Path :=
  match ProjectFile.configuration env i.project? t with
  | .error _ => []
  | .ok config =>
    let sources := (Session.new config Memo.empty).resolveSources (t.loader env.workingDirectory)
    sources.toOption.getD []

/-- The paths of referenced files and of outputs, when all sources can be read. -/
def cycleLookups (env : Environment) (i : Invocation) (t : FileTree) : List Path :=
  match Build.prepare env i t with
  | .error _ => []
  | .ok (_, session) =>
    let (_, session, emission) := Build.rehearse env session t
    (session.cache.files.flatMap fun f => f.references.map Reference.path) ++ emission.paths

/-- The paths that an invocation looks at. -/
def lookups (env : Environment) (i : Invocation) (t : FileTree) : List Path :=
  let settings := match ProjectFile.find env i.project? t with
    | .ok path => [ProjectFile.settingsPath path]
    | .error _ => []
  projectLookups env i ++ settings ++ sourceLookups env i t ++
    match i.task with
    | .build => cycleLookups env i t
    | .files => []

end IncrementalBuild.Command
