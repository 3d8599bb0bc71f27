import IncrementalBuild.Source.ChangeSet
import IncrementalBuild.Source.File
/-!
# The source cache

The cache holds every file that some cycle had, with the content its last cycle committed. Files
are staged for the next cycle; a reset commits what is staged and says what changed. Content that
is staged for a committed file stands beside it, so the committed cycle looks the same until the
reset. A rollback takes the last reset back. Pruning forgets files, but not their versions. Here an
entry is found by searching for its id or its path; the store keeps the entries in slots, with
tables beside them.
-/
namespace IncrementalBuild

/-- A file of the cache.

* `file` is the committed file, or the staged one of a path that was never committed;
* `pending` is staged content that differs from the committed file;
* `external` is the mark for the staged content;
* `committed` is the hash that the last cycle with this file committed;
* `staged` says whether the next cycle has this file;
* `rank` is the place in the committed cycle, if it has this file;
* `changedIn` is the last cycle that reported the file as changed. -/
structure Entry where
  file : SourceFile
  pending : Option SourceFile
  external : Bool
  committed : Option ContentHash
  staged : Bool
  rank : Option Nat
  changedIn : Nat
  deriving DecidableEq, Repr

/-- What a reset finds out about a staged file. -/
inductive Verdict where
  | added
  | modified
  | reappeared
  | unchanged
  deriving DecidableEq, Repr

namespace Entry

/-- A file that was never committed. -/
def new (file : SourceFile) : Entry := ⟨file, none, false, none, false, none, 0⟩

def id (e : Entry) : FileId := e.file.id

def path (e : Entry) : Path := e.file.path

/-- Whether the committed cycle has this file. -/
def inCycle (e : Entry) : Bool := e.rank.isSome

/-- The file that the next cycle would commit. -/
def next (e : Entry) : SourceFile := e.pending.getD e.file

/-- Takes staged content. The committed file is left alone. -/
def stage (e : Entry) (content : Text) : Entry :=
  if e.committed.isNone then { e with file := e.file.replaceContent content }
  else match e.pending with
    | some pending => { e with pending := some (pending.replaceContent content) }
    | none =>
      if ContentHash.ofText content = e.file.hash then e
      else
        let staged := SourceFile.ofContent e.file.id e.file.path content (e.file.version + 1)
        { e with pending := some { staged with external := e.external } }

/-- Marks the staged content as external or not. -/
def setExternal (e : Entry) (external : Bool) : Entry :=
  match e.pending with
  | some pending => { e with external, pending := some { pending with external } }
  | none =>
    if e.committed.isNone then { e with external, file := { e.file with external } }
    else { e with external }

/-- How the next cycle would differ from the committed one in this file. -/
def verdict (e : Entry) : Verdict :=
  match e.committed with
  | none => .added
  | some hash =>
    if !e.inCycle then .reappeared
    else if hash ≠ e.next.hash then .modified
    else .unchanged

/-- The entry after a reset that commits it at a place of a cycle. -/
def commit (e : Entry) (cycle rank : Nat) : Entry :=
  { file := { e.next with external := e.external }
    pending := none
    external := e.external
    committed := some e.next.hash
    staged := false
    rank := some rank
    changedIn := if e.verdict = .unchanged then e.changedIn else cycle }

end Entry

/-- What a reset can change of an entry, as it was before. The committed file is kept only if
there is staged content that takes its place. -/
structure Saved where
  id : FileId
  committed : Option ContentHash
  rank : Option Nat
  changedIn : Nat
  external : Bool
  file : Option SourceFile
  deriving DecidableEq, Repr

/-- What is needed to take a reset back. -/
structure Checkpoint where
  cycle : Nat
  members : List FileId
  entries : List Saved
  deriving DecidableEq, Repr

/-- The source files of a project across cycles. Entries stand in the order of their ids;
`retired` holds the last version of each forgotten path. -/
structure Cache where
  entries : List Entry
  nextId : FileId
  staged : List FileId
  members : List FileId
  cycle : Nat
  retired : List (Path × Nat)
  checkpoint : Option Checkpoint
  deriving DecidableEq, Repr

/-- What staging a content answers: the id of the file, and whether the next cycle would report
it as changed. -/
structure Staging where
  id : FileId
  changed : Bool
  deriving DecidableEq, Repr

namespace Entry

/-- The part of an entry that a rollback brings back. -/
def save (e : Entry) : Saved :=
  { id := e.id
    committed := e.committed
    rank := e.rank
    changedIn := e.changedIn
    external := e.file.external
    file := e.pending.map fun _ => e.file }

def restore (e : Entry) (s : Saved) : Entry :=
  { e with
    file := { s.file.getD e.file with external := s.external }
    external := s.external
    committed := s.committed
    rank := s.rank
    changedIn := s.changedIn }

end Entry

namespace Cache

def empty : Cache := ⟨[], 0, [], [], 0, [], none⟩

/-! ## Looking up -/

def entry? (c : Cache) (id : FileId) : Option Entry := c.entries.find? (·.id == id)

/-- The entry of a path, by the normal form of the path. -/
def lookup? (c : Cache) (p : Path) : Option Entry := c.entries.find? (·.path == p.normalize)

def file? (c : Cache) (id : FileId) : Option SourceFile := (c.entry? id).map Entry.file

/-- The committed file of a path, also if the committed cycle does not have it. A path that was
never committed gives its staged content. -/
def get? (c : Cache) (p : Path) : Option SourceFile := (c.lookup? p).map Entry.file

def files (c : Cache) : List SourceFile := (c.members.filterMap c.entry?).map Entry.file

def stagedFiles (c : Cache) : List SourceFile := (c.staged.filterMap c.entry?).map Entry.next

def stagedFile? (c : Cache) (id : FileId) : Option SourceFile :=
  ((c.entry? id).filter Entry.staged).map Entry.next

def isStaged (c : Cache) (p : Path) : Bool := (c.lookup? p).any Entry.staged

def contains (c : Cache) (p : Path) : Bool := (c.lookup? p).any Entry.inCycle

def hasChanged (c : Cache) (p : Path) : Bool :=
  (c.lookup? p).any fun e => e.inCycle && e.changedIn == c.cycle

/-- The place of a file in the committed cycle. -/
def position? (c : Cache) (id : FileId) : Option Nat := (c.entry? id).bind Entry.rank

def size (c : Cache) : Nat := c.members.length

/-- The location of a span, if its file is known. -/
def locate? (c : Cache) (s : Span) : Option Location := (c.file? s.file).map (·.locate s)

/-! ## Staging -/

def update (c : Cache) (id : FileId) (f : Entry → Entry) : Cache :=
  { c with entries := c.entries.map fun e => if e.id = id then f e else e }

def retiredVersion? (c : Cache) (p : Path) : Option Nat :=
  (c.retired.find? (·.1 == p)).map (·.2)

/-- Adds a path in normal form that the cache does not know. A path that was forgotten goes on
from its last version. -/
def insert (c : Cache) (p : Path) (content : Text) : Cache :=
  let version := match c.retiredVersion? p with
    | some last => last + 1
    | none => 1
  { c with
    entries := c.entries ++ [Entry.new (SourceFile.ofContent c.nextId p content version)]
    nextId := c.nextId + 1
    retired := c.retired.filter (·.1 != p) }

/-- Stages an entry as a file of the project's own. -/
def enlist (c : Cache) (id : FileId) : Cache :=
  let isNew := (c.entry? id).any (!·.staged)
  let c := c.update id fun e => { e.setExternal false with staged := true }
  if isNew then { c with staged := c.staged ++ [id] } else c

/-- Whether the committed cycle has a file other than as it is staged. -/
def differs (c : Cache) (id : FileId) : Bool :=
  !(c.entry? id).any fun e => e.inCycle && e.committed == some e.next.hash

def stage (c : Cache) (p : Path) (content : Text) : Staging × Cache :=
  let p := p.normalize
  let (id, c) := match c.entries.find? (·.path == p) with
    | some e => (e.id, c.update e.id (·.stage content))
    | none => (c.nextId, c.insert p content)
  let c := c.enlist id
  (⟨id, c.differs id⟩, c)

/-- Marks the staged content of a path as external. Unknown paths cannot be marked. -/
def markExternal (c : Cache) (p : Path) : Bool × Cache :=
  match c.lookup? p with
  | some e => (true, c.update e.id (·.setExternal true))
  | none => (false, c)

/-! ## Cycles -/

/-- What a rollback of the next reset needs. -/
def save (c : Cache) : Checkpoint :=
  ⟨c.cycle, c.members, ((c.members ++ c.staged).eraseDups.filterMap c.entry?).map Entry.save⟩

/-- The changes that a reset would report. -/
def changes (c : Cache) : ChangeSet :=
  let staged := c.staged.filterMap c.entry?
  let paths (v : Verdict) : List Path := (staged.filter (·.verdict = v)).map Entry.path
  { cycle := c.cycle + 1
    added := paths .added
    modified := paths .modified
    reappeared := paths .reappeared
    removed := ((c.members.filterMap c.entry?).filter (!·.staged)).map Entry.path
    unchanged := paths .unchanged }

/-- Commits the staged files as the next cycle. -/
def commit (c : Cache) : Cache :=
  let cycle := c.cycle + 1
  { c with
    entries := c.entries.map fun e =>
      match c.staged.idxOf? e.id with
      | some rank => e.commit cycle rank
      | none => if e.id ∈ c.members then { e with rank := none } else e
    staged := []
    members := c.staged
    cycle
    checkpoint := some c.save }

/-- Commits the staged files as the next cycle and reports the changes. -/
def reset (c : Cache) : ChangeSet × Cache := (c.changes, c.commit)

/-- Takes the last reset back, unless there is none. Nothing is staged afterwards. -/
def rollback (c : Cache) : Bool × Cache :=
  match c.checkpoint with
  | none => (false, c)
  | some saved =>
    let dropStaged (e : Entry) : Entry :=
      if e.id ∈ c.staged then { e with staged := false, pending := none } else e
    let dropRank (e : Entry) : Entry := if e.id ∈ c.members then { e with rank := none } else e
    let restore (e : Entry) : Entry :=
      match saved.entries.find? (·.id == e.id) with
      | some s => e.restore s
      | none => e
    (true,
      { c with
        entries := c.entries.map fun e => restore (dropRank (dropStaged e))
        staged := []
        members := saved.members
        cycle := saved.cycle
        checkpoint := none })

/-- Forgets every path that is not in `keep`, and says how many. -/
def prune (c : Cache) (keep : List Path) : Nat × Cache :=
  let (kept, doomed) := c.entries.partition (·.path.among keep)
  if doomed.isEmpty then (0, { c with checkpoint := none })
  else
    let live (id : FileId) : Bool := kept.any (·.id == id)
    let members := c.members.filter live
    (doomed.length,
      { c with
        entries := kept.map fun e =>
          match members.idxOf? e.id with
          | some rank => { e with rank := some rank }
          | none => e
        staged := c.staged.filter live
        members
        retired := doomed.map (fun e => (e.path, e.next.version)) ++
          c.retired.filter fun (p, _) => !doomed.any (·.path == p)
        checkpoint := none })

end Cache

/-! ## File lists -/

inductive ResolveError where
  | missingFileList
  | workingDirectory (reason : Text)
  deriving DecidableEq, Repr

def ResolveError.message : ResolveError → Text
  | missingFileList =>
    "no 'files' list is configured; supply the sources from a file glob instead"
  | workingDirectory reason =>
    "failed to determine the working directory: " ++ reason

/-- The paths that a file list names, as seen from a base directory, each once. A base directory
that is not absolute stands in the working directory. -/
def resolveFiles (workingDirectory : Path) (files : Option (List Text)) (base : Path) :
    Except ResolveError (List Path) :=
  match files with
  | none => .error .missingFileList
  | some files =>
    let base := workingDirectory.resolve base
    .ok ((files.map fun f => base.resolve ⟨f⟩).eraseDups)

end IncrementalBuild
