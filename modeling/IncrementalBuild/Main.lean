import IncrementalBuild.Command.Lookups
import IncrementalBuild.Command.Run
/-!
# The program

Reads from disk what a run looks at, runs the command on it, and writes what the run has written.
-/
namespace IncrementalBuild.Program

/-- What stands at a path whose directory is there. -/
def examine (p : Path) : IO (Option TreeEntry) := do
  try
    match String.fromUTF8? (← IO.FS.readBinFile (String.ofList p.text)) with
    | some text => return some (.file text.toList)
    | none => return some (.unreadable .notText)
  catch
    | .noFileOrDirectory .. => return none
    | .inappropriateType .. => return some .directory
    | e => return some (.unreadable (.refused e.toString.toList))

/-- Adds to a tree what stands on the way along the pieces of a path. -/
def explore (t : FileTree) (place : Place) : List Text → IO FileTree
  | [] => return t
  | piece :: rest => do
    let .ok next := FileTree.follow place piece | return t
    let found ← match t.entry? next with
      | some e => pure (some e)
      | none => examine (Place.path next)
    match found with
    | none => return t
    | some .directory => explore (t.put next .directory) next rest
    | some e => return t.put next e

/-- Adds to a tree what a run looks at, until it looks at nothing new. -/
partial def gather (env : Environment) (i : Invocation) (seen : List Path) (t : FileTree) :
    IO FileTree := do
  let fresh := (Command.lookups env i t).filter (· ∉ seen)
  if fresh.isEmpty then return t
  let along := fresh.filterMap fun p => (FileTree.pieces p).toOption
  let t ← along.foldlM (fun t pieces => explore t [] pieces) t
  gather env i (seen ++ fresh) t

/-- Writes a file and makes the directories that it stands in. -/
def save (p : Path) (text : Text) : IO Unit := do
  if let some dir := p.parent? then
    IO.FS.createDirAll (String.ofList dir.text)
  IO.FS.writeFile (String.ofList p.text) (String.ofList text)

/-- Runs the command, and gives its exit code. -/
def run (args : List Text) : IO UInt32 := do
  let defined ← ["TERM", "NO_COLOR"].filterM fun v => return (← IO.getEnv v).isSome
  let env : Environment := ⟨(← IO.currentDir).toString, defined.map String.toList⟩
  let before ← match Request.ofArguments? args with
    | some (.perform i) => gather env i [] .empty
    | _ => pure .empty
  let (outcome, after) := Command.run env args before
  for (p, text) in before.written after do
    save p text
  IO.print (String.ofList outcome.output)
  IO.eprint (String.ofList outcome.errors)
  return outcome.exitCode.toUInt32

end IncrementalBuild.Program

def main (args : List String) : IO UInt32 :=
  IncrementalBuild.Program.run (args.map String.toList)
