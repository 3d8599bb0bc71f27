import IncrementalBuild.Proofs.LineSearch
import IncrementalBuild.Proofs.ReachableCaches
import Mathlib.Data.Prod.Lex
import Mathlib.Order.Monotone.Basic
/-!
# Coordinates

The line of a position counts the newlines among the bytes before the offset, the column the bytes
behind the last of these newlines, and a later offset has a later position. The search that finds a
position reads a table of numbers of 32 bits, made of the bytes of the file, and no step of it
fails, unless 32 bits cannot hold the position itself.
-/
namespace IncrementalBuild

/-! ## Positions among bytes -/

/-- The line table of some bytes, with every offset cut to 32 bits. -/
def wordTable (bytes : List UInt8) : List Nat :=
  0 :: (bytes.idxsOf Text.newline 1).map (· % UInt32.size)

theorem wordTable_utf8 (t : Text) : wordTable t.utf8 = lineStarts t := by
  rw [lineStarts, lineOffsets_eq]
  rfl

namespace Position

/-- The position of an offset among some bytes, by a search by halves and in numbers of 32 bits. -/
def find? (bytes : List UInt8) (offset : Nat) : Option Position :=
  search? (wordTable bytes) offset

/-- Positions are ordered by their lines, and on one line by their columns. -/
def place (p : Position) : Nat ×ₗ Nat := toLex (p.line, p.column)

theorem place_lt_iff {p q : Position} :
    p.place < q.place ↔ p.line < q.line ∨ p.line = q.line ∧ p.column < q.column :=
  Prod.Lex.toLex_lt_toLex

end Position

/-! ## Lines that have started -/

theorem takeWhile_le_starts {m n : Nat} (hmn : m ≤ n) (table : List Nat) :
    table.takeWhile (· ≤ m) <+: table.takeWhile (· ≤ n) := by
  have hboth : table.takeWhile (· ≤ m) = (table.takeWhile (· ≤ n)).takeWhile (· ≤ m) := by
    rw [List.takeWhile_takeWhile]
    congr 1
    funext k
    rw [decide_eq_decide, decide_eq_true_eq, decide_eq_true_eq]
    omega
  rw [hboth]
  exact List.takeWhile_prefix _

namespace SourceFile

open Text

/-- A later byte is on a later line, or on the same line in a later column. -/
theorem position_strictMono (f : SourceFile) :
    StrictMono fun offset => (f.position offset).place := by
  intro m n hmn
  have hstarts := takeWhile_le_starts hmn.le f.lineTable
  have hstart := getLastD_takeWhile_le f.lineTable m
  rw [Position.place_lt_iff]
  rcases Nat.lt_or_eq_of_le hstarts.length_le with hlt | heq
  · exact .inl hlt
  · -- no line starts between the two
    refine .inr ⟨heq, ?_⟩
    show m - (f.lineTable.takeWhile (· ≤ m)).getLastD 0 + 1 <
      n - (f.lineTable.takeWhile (· ≤ n)).getLastD 0 + 1
    rw [← hstarts.eq_of_length heq]
    omega

theorem locate_start_le_last (f : SourceFile) (s : Span) :
    (f.locate s).start.place ≤ (f.locate s).last.place :=
  f.position_strictMono.monotone (Nat.le_max_right _ _)

/-! ## Positions of a file -/

/-- The bytes of a file before an offset: all of them, if the offset is past the end. -/
def before (f : SourceFile) (offset : Nat) : List UInt8 :=
  (utf8 f.content).take (min offset f.length)

theorem before_eq (f : SourceFile) (offset : Nat) :
    f.before offset = (utf8 f.content).take offset := by
  rw [before, length, ← length_utf8, List.take_eq_take_iff]
  omega

/-- What the positions of a file are. -/
structure Charted (f : SourceFile) : Prop where
  /-- Newlines are counted for the line, and the bytes behind the last of them for the column. -/
  counted : ∀ offset, ∃ start ≤ offset, LastLine (f.before offset) start ∧
    f.position offset = ⟨(f.before offset).count newline + 1, offset - start + 1⟩
  /-- A position is found, unless it has a number that 32 bits cannot hold. -/
  found : ∀ offset, Position.find? (utf8 f.content) offset = (f.position offset).inWords?
  /-- The line is a number of 32 bits, unless there are only newlines and no more could be. -/
  line_lt : ∀ offset, (f.position offset).line < UInt32.size ∨
    f.content = List.replicate (UInt32.size - 1) '\n'
  /-- A later byte has a later position. -/
  ordered : StrictMono fun offset => (f.position offset).place
  injective : Function.Injective f.position

section
variable {f : SourceFile} (hf : f.Made) (hsize : f.length < UInt32.size)
include hf hsize

theorem Made.counted (offset : Nat) : ∃ start ≤ offset, LastLine (f.before offset) start ∧
    f.position offset = ⟨(f.before offset).count newline + 1, offset - start + 1⟩ := by
  have hlast := lastLine_getLastD (f.before offset)
  have hle : (f.before offset).length ≤ offset := by
    rw [before_eq]
    exact List.length_take_le _ _
  refine ⟨_, hlast.start_le.trans hle, hlast, ?_⟩
  rw [position, hf.lineTable_eq hsize, takeWhile_lineOffsets_eq, ← before_eq, List.length_cons,
    List.length_idxsOf]

theorem Made.found (offset : Nat) :
    Position.find? (utf8 f.content) offset = (f.position offset).inWords? := by
  rw [Position.find?, wordTable_utf8, ← hf.lines]
  exact hf.position?_eq hsize offset

theorem Made.line_lt (offset : Nat) :
    (f.position offset).line < UInt32.size ∨
      f.content = List.replicate (UInt32.size - 1) '\n' := by
  obtain ⟨_, _, _, hposition⟩ := hf.counted hsize offset
  have hbefore : (f.before offset).count newline ≤ f.content.count '\n' := by
    rw [before_eq, ← length_lineStartsFrom 0, lineStartsFrom_eq, List.length_idxsOf]
    exact (List.take_sublist _ _).count_le _
  have hcount := List.count_le_length (a := '\n') (l := f.content)
  have hlength : f.content.length ≤ f.length := length_le_byteLength f.content
  rcases Nat.lt_or_ge (f.position offset).line UInt32.size with hlt | hge
  · exact .inl hlt
  · rw [hposition] at hge
    dsimp only at hge
    have hall : f.content.count '\n' = f.content.length := by omega
    refine .inr (List.eq_replicate_iff.mpr ⟨by omega, fun c hc => ?_⟩)
    exact (List.count_eq_length.mp hall c hc).symm

theorem Made.charted : f.Charted where
  counted := hf.counted hsize
  found := hf.found hsize
  line_lt := hf.line_lt hsize
  ordered := f.position_strictMono
  injective := fun _ _ heq => f.position_strictMono.injective (congrArg Position.place heq)

end

end SourceFile

namespace Cache

/-- Positions are exact coordinates. For every content of less than 4 GiB, in a new file and in
every committed or staged file of a reachable cache, and for every offset, also inside a character
and past the end: the line counts the newlines among the bytes before the offset, and the column the
bytes from the start of the last line on. The search for it, by halves in the line table and with
numbers of 32 bits, reads nothing outside of the table, takes no difference below zero and finds
this position, if 32 bits hold its line and its column. Later bytes have later positions, so no two
bytes have the same one. A span of a file that is known is located, and its last byte does not come
before its first. -/
theorem positions_exact :
    (∀ id path content version, Text.byteLength content < UInt32.size →
      (SourceFile.ofContent id path content version).Charted) ∧
    (∀ steps id f, (runSteps steps).file? id = some f ∨ (runSteps steps).stagedFile? id = some f →
      f.length < UInt32.size → f.Charted) ∧
    ∀ (sources : Cache) (s : Span) (f : SourceFile), sources.file? s.file = some f →
      ∃ l, sources.locate? s = some l ∧ l.path = f.path ∧ l.start = f.position s.start ∧
        l.last = f.position (max (s.stop - 1) s.start) ∧ l.start.place ≤ l.last.place := by
  refine ⟨?_, ?_, ?_⟩
  · intro id path content version hsize
    exact (SourceFile.ofContent_made id path content version).charted hsize
  · intro steps id f hfile hsize
    rcases hfile with hfile | hfile
    · exact (runSteps_made steps id f hfile).charted hsize
    · exact (runSteps_staged_made steps id f hfile).charted hsize
  · intro sources s f hfile
    refine ⟨f.locate s, ?_, rfl, rfl, rfl, f.locate_start_le_last s⟩
    rw [locate?, hfile]
    rfl

/-- A file with a character of two bytes, in which newlines follow one another and come last. -/
theorem positions_exact_of_accented :
    let f : SourceFile := .ofContent 0 "/p/a.ts" "é\n\nb\n".toList 1
    let sources := runSteps [.upsert "/p/a.ts" "é\n\nb\n".toList, .reset]
    f.length < UInt32.size ∧ sources.file? 0 = some f ∧
    [0, 1, 2, 3, 4, 6, 9].map (Position.find? (Text.utf8 f.content)) =
      [⟨1, 1⟩, ⟨1, 2⟩, ⟨1, 3⟩, ⟨2, 1⟩, ⟨3, 1⟩, ⟨4, 1⟩, ⟨4, 4⟩].map some ∧
    Position.find? (Text.utf8 f.content) (UInt32.size - 1) =
      some ⟨4, UInt32.size - 6⟩ ∧
    ∃ l, sources.locate? ⟨0, 1, 4⟩ = some l ∧ l.start = f.position 1 ∧
      l.start.place ≤ l.last.place := by
  intro f sources
  have hsize : f.length < UInt32.size := by decide
  have hfile : sources.file? 0 = some f := by decide +kernel
  have hnew := (positions_exact.1 0 "/p/a.ts" "é\n\nb\n".toList 1 hsize).found
  have hcached := (positions_exact.2.1 _ 0 f (.inl hfile) hsize).found
  obtain ⟨l, hl, _, hstart, _, hle⟩ := positions_exact.2.2 sources ⟨0, 1, 4⟩ f hfile
  refine ⟨hsize, hfile, ?_, (hcached _).trans (by decide +kernel), l, hl, hstart, hle⟩
  rw [funext hnew]
  decide +kernel

end Cache

end IncrementalBuild
