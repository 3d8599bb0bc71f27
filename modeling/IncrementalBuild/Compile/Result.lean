import IncrementalBuild.Diagnostic.Basic
import IncrementalBuild.Path.Basic
/-!
# Results of a compiler

A compiler turns each source file into an artifact. A result holds one artifact a source, in the
order of their paths, and the diagnostics in the order the compiler found them.
-/
namespace IncrementalBuild

/-- The code and the declarations made from a source file. Either can be missing. -/
structure Artifact where
  source : Path
  code : Option Text
  declaration : Option Text
  deriving DecidableEq, Repr

namespace Artifact

/-- The artifact of a source that nothing is made from. -/
def none (source : Path) : Artifact := ⟨source, .none, .none⟩

def isEmpty (a : Artifact) : Bool := a.code.isNone && a.declaration.isNone

/-- Puts an artifact among others in the order of their paths, in place of an earlier one of its
source. -/
def insert (a : Artifact) : List Artifact → List Artifact
  | [] => [a]
  | b :: rest =>
    if a.source.same b.source then a :: rest
    else if a.source.le b.source then a :: b :: rest
    else b :: insert a rest

end Artifact

/-- What a compiler made in one cycle. -/
structure CompileResult where
  artifacts : List Artifact
  diagnostics : List Diagnostic
  deriving DecidableEq, Repr

namespace CompileResult

def empty : CompileResult := ⟨[], []⟩

def insert (r : CompileResult) (a : Artifact) : CompileResult :=
  { r with artifacts := a.insert r.artifacts }

def report (r : CompileResult) (ds : List Diagnostic) : CompileResult :=
  { r with diagnostics := r.diagnostics ++ ds }

def artifact? (r : CompileResult) (source : Path) : Option Artifact :=
  r.artifacts.find? (·.source.same source)

def hasErrors (r : CompileResult) : Bool := r.diagnostics.any Diagnostic.isError

end CompileResult

/-- Why a compiler made nothing at all. -/
inductive CompileError where
  | invalidOption (option message : Text)
  | backend (name message : Text)
  deriving DecidableEq, Repr

def CompileError.message : CompileError → Text
  | invalidOption option message =>
    "invalid compiler option '".toList ++ option ++ "': ".toList ++ message
  | backend name message =>
    "compiler backend '".toList ++ name ++ "' failed: ".toList ++ message

end IncrementalBuild
