import IncrementalBuild.Config.Project
import IncrementalBuild.Config.Settings
/-!
# Build configurations

A project file at its place, with the settings of the build. Directories of the project are
relative to the directory of the project file.
-/
namespace IncrementalBuild

structure BuildConfiguration where
  configPath : Path
  project : ProjectConfig
  settings : BuildSettings

namespace BuildConfiguration

/-- The configuration of a project file at a path, which is put into normal form. -/
def of (configPath : Path) (project : ProjectConfig) (settings : BuildSettings) :
    BuildConfiguration :=
  ⟨configPath.normalize, project, settings⟩

def options (c : BuildConfiguration) : CompilerOptions := c.project.options

def configDir (c : BuildConfiguration) : Path :=
  match c.configPath.parent? with
  | none | some ⟨[]⟩ => "."
  | some dir => dir

/-- The directory that sources are relative to. -/
def baseDir (c : BuildConfiguration) : Path :=
  match c.options.rootDir with
  | some root => c.configDir.resolve ⟨root⟩
  | none => c.configDir

/-- The file that all code goes to, if there is one. -/
def outPath (c : BuildConfiguration) : Option Path :=
  c.options.out.map fun out => c.configDir.resolve ⟨out⟩

def outDir (c : BuildConfiguration) : Option Path :=
  c.options.outDir.map fun dir => c.configDir.resolve ⟨dir⟩

def singleOutput (c : BuildConfiguration) : Bool := c.options.out.isSome

/-- The configuration with other settings. -/
def withSettings (c : BuildConfiguration) (settings : BuildSettings) : BuildConfiguration :=
  { c with settings }

/-- The configuration in the texts of a project file, if there is one, and a settings file. -/
def ofTexts (configPath : Path) (project : Option Text) (settings : Text) :
    Except ConfigError BuildConfiguration := do
  let project ← match project with
    | none => .ok .empty
    | some t => ProjectConfig.ofText t
  let settings ← BuildSettings.ofText settings
  return of configPath project settings

end BuildConfiguration

end IncrementalBuild
