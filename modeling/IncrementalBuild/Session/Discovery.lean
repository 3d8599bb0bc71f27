import IncrementalBuild.Diagnostic.Log
import IncrementalBuild.Session.Loader
import IncrementalBuild.Source.Cache
/-!
# Discovery

Before a cycle, every file that a staged file refers to is staged too, and marked as external.
New files are searched for references in turn. A reference that leads to no staged file becomes a
warning.
-/
namespace IncrementalBuild

/-- A discovery under way: the cache, the staged files that were not searched yet, the warnings,
and the number of files found. -/
structure Discovery where
  cache : Cache
  queue : List FileId
  log : DiagnosticLog
  found : Nat

namespace Discovery

/-- The warning for a reference when no files are read. -/
def unresolved (r : Reference) : Diagnostic :=
  { Diagnostic.warning .unresolvedExternal
      ("referenced file `".toList ++ r.path.text ++ "` is not part of the project".toList)
      r.span with
    help := ["add `".toList ++ r.path.text ++ "` to the project's source list".toList] }

/-- The warning for a reference to a file that cannot be read. -/
def unreadable (r : Reference) (reason : Text) : Diagnostic :=
  .warning .missingReference
    ("cannot read referenced file `".toList ++ r.path.text ++ "`: ".toList ++ reason) r.span

/-- Follows a reference to a file that is not staged. -/
def follow (loader : Loader) (readFiles : Bool) (d : Discovery) (r : Reference) : Discovery :=
  if d.cache.isStaged r.path then d
  else if !readFiles then { d with log := d.log.emit (unresolved r) }
  else match loader.read r.path with
    | .ok content =>
      let (staging, cache) := d.cache.stage r.path content
      let (_, cache) := cache.markExternal r.path
      { d with cache, queue := d.queue ++ [staging.id], found := d.found + 1 }
    | .error reason => { d with log := d.log.emit (unreadable r reason) }

/-- Follows the references of a file that lead to files not staged before. -/
def search (loader : Loader) (readFiles : Bool) (d : Discovery) (id : FileId) : Discovery :=
  match d.cache.stagedFile? id with
  | none => d
  | some f =>
    (f.references.filter fun r => !d.cache.isStaged r.path).foldl (follow loader readFiles) d

/-- Searches the files in the queue, at most `bound` of them. -/
def run (loader : Loader) (readFiles : Bool) : Nat → Discovery → Discovery
  | 0, d => d
  | bound + 1, d =>
    match d.queue with
    | [] => d
    | id :: queue => run loader readFiles bound (search loader readFiles { d with queue } id)

end Discovery

/-- Stages every file that staged files lead to. Each file of the loader is found at most once,
so the staged files and the files of the loader bound the search. -/
def stageExternals (loader : Loader) (noExternalResolve : Bool) (c : Cache) : Discovery :=
  let queue := c.stagedFiles.map SourceFile.id
  Discovery.run loader (!noExternalResolve) (queue.length + loader.files.length)
    ⟨c, queue, .empty, 0⟩

end IncrementalBuild
