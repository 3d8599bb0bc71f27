import IncrementalBuild.Command.Build
/-!
# The command

What the command does for its arguments: it builds a project, or shows the files of a project, or
answers a question about itself.
-/
namespace IncrementalBuild.Command

def version : Text := "weft 0.1.0\n"

/-- How the command is used, line by line. -/
def usageLines : List String :=
  ["Usage: weft [OPTIONS] <build|files>", "",
    "  build   Run one build cycle and write its outputs",
    "  files   Print the source files of the project, one per line", "",
    "  -q, --quiet                       Show errors and diagnostics only",
    "  -v, --verbose                     Show more",
    "      --color <auto|always|never>   When to color reports",
    "      --project <PATH>              The project file or its directory",
    "  -h, --help                        Print help",
    "  -V, --version                     Print the version", "",
    "Options of build:",
    "      --no-external-resolve         Do not read files outside the project",
    "      --sort-output                 Order outputs by their references",
    "      --ordering <resolution|path>  The order of files without references",
    "  -f, --format <text|json>          The format of reports",
    "      --dry-run                     Write nothing"]

def usage : Text := usageLines.flatMap fun line => line.toList ++ ['\n']

/-- Shows the source files of the project, one a line. -/
def files (env : Environment) (i : Invocation) (t : FileTree) : Outcome :=
  match ProjectFile.configuration env i.project? t with
  | .error reason => .failure [] reason
  | .ok config =>
    match (Session.new config Memo.empty).resolveSources (t.loader env.workingDirectory) with
    | .error e => .failure [] e.message
    | .ok paths => ⟨0, paths.flatMap fun p => p.text ++ "\n".toList, []⟩

def perform (env : Environment) (t : FileTree) : Request → Outcome × FileTree
  | .version => (⟨0, version, []⟩, t)
  | .help => (⟨0, usage, []⟩, t)
  | .perform i =>
    match i.task with
    | .build => Build.run env i t
    | .files => (files env i t, t)

/-- Runs the command. Arguments that are not well formed are answered with how it is used. -/
def run (env : Environment) (args : List Text) (t : FileTree) : Outcome × FileTree :=
  match Request.ofArguments? args with
  | some request => perform env t request
  | none => (⟨2, [], usage⟩, t)

end IncrementalBuild.Command
