import IncrementalBuild.Config.Build
/-!
# Where outputs go

An output stands beside its source, or in the output directory at the place that its source has
in the base directory. A source outside the base directory goes to the top of the output
directory. A bundle has one file of code and one of declarations.
-/
namespace IncrementalBuild

/-- The directories that decide where outputs go, and the file of a bundle. -/
structure OutputLayout where
  baseDir : Path
  outDir : Option Path
  bundle : Option Path
  deriving DecidableEq, Repr

namespace OutputLayout

def ofConfiguration (c : BuildConfiguration) : OutputLayout := ⟨c.baseDir, c.outDir, c.outPath⟩

/-- The place of a source, before its extension is replaced. -/
def relocate (l : OutputLayout) (source : Path) : Path :=
  match l.outDir with
  | none => source
  | some outDir =>
    match Path.relativeTo? l.baseDir source with
    | some relative => outDir.join relative
    | none => outDir.join ((source.fileName?.map Path.mk).getD source)

def codePath (l : OutputLayout) (source : Path) : Path := (l.relocate source).withExtension "js"

def declarationPath (l : OutputLayout) (source : Path) : Path :=
  (l.relocate source).withExtension "d.ts"

/-- The files of a bundle: code and declarations. -/
def bundlePaths (l : OutputLayout) : Option (Path × Path) :=
  l.bundle.map fun out => (out, out.withExtension "d.ts")

end OutputLayout

end IncrementalBuild
