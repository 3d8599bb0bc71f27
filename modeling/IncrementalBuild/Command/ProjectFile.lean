import IncrementalBuild.Command.Arguments
import IncrementalBuild.Command.FileTree
import IncrementalBuild.Config.Build
/-!
# Finding the project

The project file is the one that is named, the one in the directory that is named, or the nearest
one around the working directory. A settings file counts if it stands beside the project file.
-/
namespace IncrementalBuild

/-- What surrounds a command: the directory it runs in, an absolute path in normal form, and the
names of the environment variables that are set. -/
structure Environment where
  workingDirectory : Path
  defined : List Text
  deriving DecidableEq, Repr

namespace ProjectFile

def name : Text := "tsconfig.json"

def settingsName : Text := "weft.toml"

/-- The places of a project file in a directory with these components, last first, and in the
directories around it. -/
def around : List Component → List Path
  | [] => []
  | c :: outer =>
    (Path.ofComponents (c :: outer).reverse).join ⟨name⟩ :: around outer

/-- The fault when no directory has a project file. -/
def notFoundMessage (start : Path) : Text :=
  "could not find ".toList ++ name ++ " in ".toList ++ start.text ++
    " or any parent directory".toList

def find (env : Environment) (project : Option Path) (t : FileTree) : Except Text Path :=
  let start := env.workingDirectory
  match project with
  | some project =>
    let path := start.join project
    .ok (if t.isDirectory path then path.join ⟨name⟩ else path)
  | none =>
    match (around start.components.reverse).find? t.isFile with
    | some path => .ok path
    | none => .error (notFoundMessage start)

def settingsPath (configPath : Path) : Path := (configPath.parent?.getD ".").join ⟨settingsName⟩

def readText (t : FileTree) (p : Path) : Except ConfigError Text :=
  match t.read p with
  | .ok text => .ok text
  | .error e => .error (.unreadable e.message)

def load (t : FileTree) (configPath : Path) : Except ConfigError BuildConfiguration := do
  let project ← ProjectConfig.ofText (← readText t configPath)
  let settingsPath := settingsPath configPath
  let settings ← if t.isFile settingsPath then
      BuildSettings.ofText (← readText t settingsPath)
    else .ok .initial
  return .of configPath project settings

/-- The configuration of the project, or why there is none. -/
def configuration (env : Environment) (project : Option Path) (t : FileTree) :
    Except Text BuildConfiguration :=
  match find env project t with
  | .error reason => .error reason
  | .ok path => (load t path).mapError ConfigError.message

end ProjectFile

end IncrementalBuild
