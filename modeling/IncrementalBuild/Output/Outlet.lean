import IncrementalBuild.Path.Basic
/-!
# Outlets

Outputs flow in two streams, code and declarations. An outlet takes the files of one stream and is
told when no more come; it is any machine whose two operations may fail at every call. Outlets
are the two together, which may share their state.
-/
namespace IncrementalBuild

/-- The two streams. -/
inductive OutputKind where
  | code
  | declaration
  deriving DecidableEq, Repr

def OutputKind.text : OutputKind → Text
  | code => "code"
  | declaration => "declaration"

/-- An output file. A bundle has no single source. -/
structure OutputFile where
  path : Path
  source : Option Path
  kind : OutputKind
  contents : Text
  deriving DecidableEq, Repr

/-- An outlet with states of type `σ`. An operation that fails gives the reason. -/
structure Outlet (σ : Type) where
  push : OutputFile → σ → Except Text Unit × σ
  finish : σ → Except Text Unit × σ

/-- A pair of outlets with states of type `σ`. -/
structure Outlets (σ : Type) where
  push : OutputKind → OutputFile → σ → Except Text Unit × σ
  finish : OutputKind → σ → Except Text Unit × σ

/-- Two outlets that share nothing. -/
def Outlets.pair {σ τ : Type} (code : Outlet σ) (declarations : Outlet τ) : Outlets (σ × τ) where
  push kind file := fun (s, t) =>
    match kind with
    | .code => let (r, s) := code.push file s; (r, (s, t))
    | .declaration => let (r, t) := declarations.push file t; (r, (s, t))
  finish kind := fun (s, t) =>
    match kind with
    | .code => let (r, s) := code.finish s; (r, (s, t))
    | .declaration => let (r, t) := declarations.finish t; (r, (s, t))

/-- Why an output did not come through. -/
structure OutputError where
  stream : OutputKind
  reason : Text
  deriving DecidableEq, Repr

def OutputError.message (e : OutputError) : Text :=
  "failed to write ".toList ++ e.stream.text ++ " output: ".toList ++ e.reason

/-! ## Keeping outputs -/

/-- The files that were pushed, in order, and whether the stream has ended. -/
structure Shelf where
  files : List OutputFile
  finished : Bool
  deriving DecidableEq, Repr

namespace Shelf

def empty : Shelf := ⟨[], false⟩

/-- Adds a file. After the end of the stream no file is taken. -/
def push (file : OutputFile) (s : Shelf) : Except Text Unit × Shelf :=
  if s.finished then (.error "push after the sink was finished", s)
  else (.ok (), { s with files := s.files ++ [file] })

def finish (s : Shelf) : Except Text Unit × Shelf := (.ok (), { s with finished := true })

def outlet : Outlet Shelf := ⟨push, finish⟩

def paths (s : Shelf) : List Path := s.files.map OutputFile.path

def contents? (s : Shelf) (p : Path) : Option Text :=
  (s.files.find? (·.path.same p)).map OutputFile.contents

end Shelf

end IncrementalBuild
