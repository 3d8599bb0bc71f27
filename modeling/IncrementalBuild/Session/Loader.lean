import IncrementalBuild.Path.Normal
/-!
# Loaders

A loader reads source files by path. It knows finitely many files, and says why any other path
cannot be read.
-/
namespace IncrementalBuild

/-- The files that can be read, under paths in normal form, each path once; the reason for every
other path; and the directory that a relative base directory stands in. -/
structure Loader where
  workingDirectory : Path
  files : List (Path × Text)
  missing : Path → Text

namespace Loader

/-- A loader without files, which names the path it does not have. -/
def empty : Loader where
  workingDirectory := "/"
  files := []
  missing p := "no such file: ".toList ++ p.text

def read (l : Loader) (p : Path) : Except Text Text :=
  match l.files.find? (·.1 == p.normalize) with
  | some (_, content) => .ok content
  | none => .error (l.missing p)

/-- Adds a file, or replaces its content. -/
def insert (l : Loader) (p : Path) (content : Text) : Loader :=
  { l with files := (p.normalize, content) :: l.files.filter (·.1 != p.normalize) }

/-- Removes a file, and says whether there was one. -/
def remove (l : Loader) (p : Path) : Bool × Loader :=
  (l.files.any (·.1 == p.normalize),
    { l with files := l.files.filter (·.1 != p.normalize) })

end Loader

end IncrementalBuild
