import IncrementalBuild.Compile.Result
import IncrementalBuild.Config.Build
/-!
# Compilers

A compiler is a machine with a state of its own. It sees the committed cycle, the configuration
and the changes of the cycle, and gives a result or an error.
-/
namespace IncrementalBuild

/-- A compiler with states of type `σ`. -/
structure Compiler (σ : Type) where
  name : Text
  compile : BuildConfiguration → Cache → ChangeSet → σ → Except CompileError CompileResult × σ

/-- The compiler of the same name that fails with a message and keeps its state. -/
def Compiler.failing {σ : Type} (c : Compiler σ) (message : Text) : Compiler σ :=
  { c with compile := fun _ _ _ s => (.error (.backend c.name message), s) }

end IncrementalBuild
