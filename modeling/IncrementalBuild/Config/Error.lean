import IncrementalBuild.Source.Cache
/-!
# Faults of a configuration
-/
namespace IncrementalBuild

/-- Why there is no configuration, or no file list in it. -/
inductive ConfigError where
  | unreadable (reason : Text)
  | malformedProject (reason : Text)
  | malformedSettings (reason : Text)
  | invalid (reason : Text)
  | missingFileList
  deriving DecidableEq, Repr

namespace ConfigError

def message : ConfigError → Text
  | unreadable reason => "failed to read configuration: " ++ reason
  | malformedProject reason => "failed to parse configuration: " ++ reason
  | malformedSettings reason => "failed to parse build settings: " ++ reason
  | invalid reason => "validation error: " ++ reason
  | missingFileList =>
    "sources can only be resolved when the project file has a 'files' list; glob the sources instead"

/-- The fault of a configuration whose file list gives no paths. -/
def ofResolve : ResolveError → ConfigError
  | .missingFileList => missingFileList
  | .workingDirectory reason => unreadable reason

end ConfigError

end IncrementalBuild
