import IncrementalBuild.Source.Cache
/-!
# The store of the source cache

The cache as it is kept. Each file has a slot, whose number is its id, and a forgotten file leaves
its slot empty. Beside the slots a table finds the ids of paths, and two lists hold the ids of what
is staged and of the committed cycle, which the slots say of themselves too. Nothing but the
operations keeps all of this together: they bring it up to date part by part, and pass over slots
that are empty.
-/
namespace IncrementalBuild

/-- A file of the store. The mark that the committed cycle has it stands apart from its place
there. All else is as in an entry of the cache. -/
structure Slot where
  file : SourceFile
  pending : Option SourceFile
  external : Bool
  committed : Option ContentHash
  staged : Bool
  inCycle : Bool
  rank : Nat
  changedIn : Nat
  deriving DecidableEq, Repr

/-- What a reset can change of a slot, as it was before. -/
structure SavedSlot where
  id : FileId
  committed : Option ContentHash
  inCycle : Bool
  rank : Nat
  changedIn : Nat
  external : Bool
  file : Option SourceFile
  deriving DecidableEq, Repr

namespace Slot

/-- The place of a file outside the committed cycle. -/
def nowhere : Nat := UInt64.size - 1

def new (file : SourceFile) : Slot := ⟨file, none, false, none, false, false, nowhere, 0⟩

def next (s : Slot) : SourceFile := s.pending.getD s.file

/-- Takes staged content. The committed file is left alone. -/
def stage (s : Slot) (content : Text) : Slot :=
  if s.committed.isNone then { s with file := s.file.replaceContent content }
  else match s.pending with
    | some pending => { s with pending := some (pending.replaceContent content) }
    | none =>
      if ContentHash.ofText content = s.file.hash then s
      else
        let staged := SourceFile.ofContent s.file.id s.file.path content (s.file.version + 1)
        { s with pending := some { staged with external := s.external } }

def setExternal (s : Slot) (external : Bool) : Slot :=
  match s.pending with
  | some pending => { s with external, pending := some { pending with external } }
  | none =>
    if s.committed.isNone then { s with external, file := { s.file with external } }
    else { s with external }

/-- Whether the committed cycle has the file as it is staged. -/
def isCommitted (s : Slot) : Bool := s.inCycle && s.committed == some s.next.hash

def verdict (s : Slot) : Verdict :=
  match s.committed with
  | none => .added
  | some hash =>
    if !s.inCycle then .reappeared
    else if hash ≠ s.next.hash then .modified
    else .unchanged

/-! ## Steps of a reset and a rollback -/

/-- Notes the cycle that reports the file as changed. -/
def report (cycle : Nat) (s : Slot) : Slot :=
  if s.verdict = .unchanged then s else { s with changedIn := cycle }

/-- Takes the file out of the committed cycle. -/
def leave (s : Slot) : Slot := { s with inCycle := false, rank := nowhere }

/-- Commits what is staged at a place of the cycle. -/
def enter (rank : Nat) (s : Slot) : Slot :=
  let file := { s.next with external := s.external }
  { s with
    file
    pending := none
    committed := some file.hash
    staged := false
    inCycle := true
    rank }

/-- Drops what is staged. -/
def unstage (s : Slot) : Slot := { s with staged := false, pending := none }

def save (id : FileId) (s : Slot) : SavedSlot :=
  { id
    committed := s.committed
    inCycle := s.inCycle
    rank := s.rank
    changedIn := s.changedIn
    external := s.file.external
    file := s.pending.map fun _ => s.file }

def restore (saved : SavedSlot) (s : Slot) : Slot :=
  { s with
    file := { saved.file.getD s.file with external := saved.external }
    external := saved.external
    committed := saved.committed
    inCycle := saved.inCycle
    rank := saved.rank
    changedIn := saved.changedIn }

end Slot

/-- What is needed to take a reset back. -/
structure SlotCheckpoint where
  cycle : Nat
  members : List FileId
  slots : List SavedSlot
  deriving DecidableEq, Repr

/-- The slots and what stands beside them. The table of paths and the one of retired versions hold
each path once. -/
structure Store where
  slots : List (Option Slot)
  byPath : List (Path × FileId)
  staged : List FileId
  members : List FileId
  cycle : Nat
  retired : List (Path × Nat)
  checkpoint : Option SlotCheckpoint
  deriving DecidableEq, Repr

namespace Store

def empty : Store := ⟨[], [], [], [], 0, [], none⟩

/-! ## Looking up -/

/-- The slot with an id, unless it is empty or there is none. -/
def slot? (s : Store) (id : FileId) : Option Slot := s.slots[id]?.join

/-- The id of a path in normal form. -/
def idOf? (s : Store) (p : Path) : Option FileId := (s.byPath.find? (·.1 == p)).map (·.2)

/-- The slot of a path. It is looked up as it is written first, and then by its normal form. -/
def lookup? (s : Store) (p : Path) : Option Slot :=
  let id? := match s.byPath.find? (·.1.same p) with
    | some (_, id) => some id
    | none => s.idOf? p.normalize
  id?.bind s.slot?

def retiredVersion? (s : Store) (p : Path) : Option Nat :=
  (s.retired.find? (·.1 == p)).map (·.2)

def file? (s : Store) (id : FileId) : Option SourceFile := (s.slot? id).map Slot.file

def get? (s : Store) (p : Path) : Option SourceFile := (s.lookup? p).map Slot.file

def files (s : Store) : List SourceFile := (s.members.filterMap s.slot?).map Slot.file

def stagedFiles (s : Store) : List SourceFile := (s.staged.filterMap s.slot?).map Slot.next

def stagedFile? (s : Store) (id : FileId) : Option SourceFile :=
  ((s.slot? id).filter Slot.staged).map Slot.next

def isStaged (s : Store) (p : Path) : Bool := (s.lookup? p).any Slot.staged

def contains (s : Store) (p : Path) : Bool := (s.lookup? p).any Slot.inCycle

def hasChanged (s : Store) (p : Path) : Bool :=
  (s.lookup? p).any fun e => e.inCycle && e.changedIn == s.cycle

def position? (s : Store) (id : FileId) : Option Nat :=
  ((s.slot? id).filter Slot.inCycle).map Slot.rank

/-! ## Changing slots -/

/-- Changes a slot, unless it is empty. -/
def modify (s : Store) (id : FileId) (f : Slot → Slot) : Store :=
  { s with slots := s.slots.modify id (Option.map f) }

/-- Changes slots one after the other. -/
def modifyEach (s : Store) (changes : List (FileId × (Slot → Slot))) : Store :=
  changes.foldl (fun s (id, f) => s.modify id f) s

/-- For each id of a list, a change of its slot that depends on its place in the list. -/
def byPlace (ids : List FileId) (f : Nat → Slot → Slot) : List (FileId × (Slot → Slot)) :=
  ids.zipIdx.map fun (id, place) => (id, f place)

/-! ## Staging -/

/-- Adds a slot for a path in normal form that the table does not have. Ids have 32 bits. -/
def insert (s : Store) (p : Path) (content : Text) : FileId × Store :=
  let id := s.slots.length % UInt32.size
  let version := match s.retiredVersion? p with
    | some last => last + 1
    | none => 1
  (id, { s with
    slots := s.slots ++ [some (.new (.ofContent id p content version))]
    byPath := s.byPath ++ [(p, id)]
    retired := s.retired.filter (·.1 != p) })

/-- Stages a slot as a file of the project's own. -/
def enlist (s : Store) (id : FileId) : Store :=
  let isNew := (s.slot? id).any (!·.staged)
  let s := s.modify id fun e => { e.setExternal false with staged := true }
  if isNew then { s with staged := s.staged ++ [id] } else s

def stage (s : Store) (p : Path) (content : Text) : Staging × Store :=
  let p := p.normalize
  let (id, s) := match s.idOf? p with
    | some id => (id, s.modify id (·.stage content))
    | none => s.insert p content
  let s := s.enlist id
  (⟨id, !(s.slot? id).any Slot.isCommitted⟩, s)

/-- Marks the staged content of a path as external. Unknown paths cannot be marked. -/
def markExternal (s : Store) (p : Path) : Bool × Store :=
  match s.idOf? p.normalize with
  | none => (false, s)
  | some id =>
    match s.slot? id with
    | none => (false, s)
    | some _ => (true, s.modify id (·.setExternal true))

/-! ## Cycles -/

def save (s : Store) : SlotCheckpoint :=
  ⟨s.cycle, s.members,
    (s.members ++ s.staged).eraseDups.filterMap fun id => (s.slot? id).map (Slot.save id)⟩

def changes (s : Store) : ChangeSet :=
  let staged := s.staged.filterMap s.slot?
  let paths (v : Verdict) : List Path := (staged.filter (·.verdict = v)).map (·.file.path)
  { cycle := s.cycle + 1
    added := paths .added
    modified := paths .modified
    reappeared := paths .reappeared
    removed := ((s.members.filterMap s.slot?).filter (!·.staged)).map (·.file.path)
    unchanged := paths .unchanged }

/-- Commits the staged files as the next cycle. What is changed is noted while the slots still say
what the cycle before had. -/
def commit (s : Store) : Store :=
  let cycle := s.cycle + 1
  let noted := s.modifyEach (s.staged.map (·, Slot.report cycle))
  let left := noted.modifyEach (s.members.map (·, Slot.leave))
  let entered := left.modifyEach (byPlace s.staged Slot.enter)
  { entered with staged := [], members := s.staged, cycle, checkpoint := some s.save }

/-- Commits the staged files as the next cycle and reports the changes. -/
def reset (s : Store) : ChangeSet × Store := (s.changes, s.commit)

/-- Takes the last reset back, unless there is none. Nothing is staged afterwards. -/
def rollback (s : Store) : Bool × Store :=
  match s.checkpoint with
  | none => (false, s)
  | some saved =>
    let unstaged := s.modifyEach (s.staged.map (·, Slot.unstage))
    let left := unstaged.modifyEach (s.members.map (·, Slot.leave))
    let restored := left.modifyEach (saved.slots.map fun e => (e.id, Slot.restore e))
    (true, { restored with
      staged := [], members := saved.members, cycle := saved.cycle, checkpoint := none })

/-- Empties the slot of a path, remembers the version and takes the path out of the table. -/
def forget (s : Store) (p : Path) (id : FileId) : Store :=
  let s := match s.slot? id with
    | none => s
    | some e => { s with
        slots := s.slots.set id none
        retired := (p, e.next.version) :: s.retired.filter (·.1 != p) }
  { s with byPath := s.byPath.filter (·.1 != p) }

/-- Forgets every path that is not in `keep`, and says how many. -/
def prune (s : Store) (keep : List Path) : Nat × Store :=
  let doomed := s.byPath.filter fun (p, _) => !p.among keep
  let s := doomed.foldl (fun s (p, id) => s.forget p id) { s with checkpoint := none }
  if doomed.isEmpty then (0, s)
  else
    let live (id : FileId) : Bool := (s.slot? id).isSome
    let members := s.members.filter live
    let ranked := s.modifyEach (byPlace members fun rank e => { e with rank })
    (doomed.length, { ranked with staged := s.staged.filter live, members })

end Store

end IncrementalBuild
