import IncrementalBuild.Path.Basic
/-!
# Change sets

What a cycle changed against the cycle before it. Every file of the cycle stands in one of four
lists; the files that are gone stand in the fifth.
-/
namespace IncrementalBuild

structure ChangeSet where
  cycle : Nat
  added : List Path
  modified : List Path
  reappeared : List Path
  removed : List Path
  unchanged : List Path
  deriving DecidableEq, Repr

namespace ChangeSet

def empty : ChangeSet := ⟨0, [], [], [], [], []⟩

/-- The files of the cycle that the cycle before it did not have in this form. -/
def changed (c : ChangeSet) : List Path := c.added ++ c.modified ++ c.reappeared

/-- The changed files and the removed ones. -/
def dirty (c : ChangeSet) : List Path := c.changed ++ c.removed

/-- Whether nothing changed and nothing was removed. -/
def isEmpty (c : ChangeSet) : Bool := c.dirty.isEmpty

/-- Whether a path was changed or removed. -/
def contains (c : ChangeSet) (p : Path) : Bool := p.among c.dirty

def dirtyCount (c : ChangeSet) : Nat := c.added.length + c.modified.length + c.reappeared.length

end ChangeSet

end IncrementalBuild
