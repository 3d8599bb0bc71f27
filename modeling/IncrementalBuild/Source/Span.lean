import IncrementalBuild.Path.Basic
/-!
# Spans

A span is a range of bytes of one source file. Offsets, lines and columns are numbers of 32 bits.
-/
namespace IncrementalBuild

abbrev FileId := Nat

/-- The id that stands for no file. -/
def FileId.dummy : FileId := UInt32.size - 1

/-- The bytes from `start` up to `stop` of a file. -/
structure Span where
  file : FileId
  start : Nat
  stop : Nat
  deriving DecidableEq, Repr

namespace Span

/-- The span between two offsets of a file, of which the lower 32 bits are kept. -/
def ofOffsets (file : FileId) (start stop : Nat) : Span :=
  ⟨file, start % UInt32.size, stop % UInt32.size⟩

theorem ofOffsets_eq {file : FileId} {start stop : Nat} (hle : start ≤ stop)
    (hstop : stop < UInt32.size) : ofOffsets file start stop = ⟨file, start, stop⟩ := by
  rw [ofOffsets, Nat.mod_eq_of_lt hstop, Nat.mod_eq_of_lt (Nat.lt_of_le_of_lt hle hstop)]

/-- The span of what has no place in any file. -/
def dummy : Span := ⟨FileId.dummy, 0, 0⟩

/-- The span of a whole file of `length` bytes. -/
def whole (file : FileId) (length : Nat) : Span := ⟨file, 0, length⟩

def length (s : Span) : Nat := s.stop - s.start

def isEmpty (s : Span) : Bool := s.start == s.stop

def isDummy (s : Span) : Bool := s.file == FileId.dummy

end Span

/-- Lines are divided at newlines, and lines and columns are counted from one. Columns count
bytes. -/
structure Position where
  line : Nat
  column : Nat
  deriving DecidableEq, Repr

/-- A span with the path of its file and the positions of its first and its last byte. -/
structure Location where
  path : Path
  start : Position
  last : Position
  deriving DecidableEq, Repr

/-- A position in numbers of 32 bits. -/
def Position.inWords (p : Position) : Position := ⟨p.line % UInt32.size, p.column % UInt32.size⟩

/-- A location as it is shown to people. -/
def Location.text (l : Location) : Text :=
  let start := l.start.inWords
  l.path.text ++ ':' :: Text.ofNat start.line ++ ':' :: Text.ofNat start.column

end IncrementalBuild
