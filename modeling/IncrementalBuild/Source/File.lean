import IncrementalBuild.Hash.Content
import IncrementalBuild.Source.Header
/-!
# Source files

A source file has a content and what is computed from it: its hash, its references, and the
offsets at which its lines start. Its version counts the contents it has had.
-/
namespace IncrementalBuild

/-- The offsets just after each newline of a text that starts at byte `offset`. -/
def lineStartsFrom (offset : Nat) : Text → List Nat
  | [] => []
  | c :: rest =>
    let next := offset + c.utf8Size
    if c = '\n' then next :: lineStartsFrom next rest else lineStartsFrom next rest

/-- The offsets at which the lines of a text start. -/
def lineOffsets (t : Text) : List Nat := 0 :: lineStartsFrom 0 t

/-- The line table of a text: the lower 32 bits of the offsets at which its lines start. -/
def lineStarts (t : Text) : List Nat := (lineOffsets t).map (· % UInt32.size)

structure SourceFile where
  id : FileId
  path : Path
  content : Text
  version : Nat
  hash : ContentHash
  references : List Reference
  lineTable : List Nat
  external : Bool
  deriving DecidableEq, Repr

def Path.isDeclaration (p : Path) : Bool :=
  p.fileName?.any fun t => Text.endsWith t ".d.ts"

namespace SourceFile

def ofContent (id : FileId) (path : Path) (content : Text) (version : Nat) : SourceFile :=
  { id, path, content, version
    hash := ContentHash.ofText content
    references := Header.references id path content
    lineTable := lineStarts content
    external := false }

/-- The file with another content and the next version, unless the content is the same. -/
def replaceContent (f : SourceFile) (content : Text) : SourceFile :=
  if ContentHash.ofText content = f.hash then f
  else { ofContent f.id f.path content (f.version + 1) with external := f.external }

def isDeclaration (f : SourceFile) : Bool := f.path.isDeclaration

def length (f : SourceFile) : Nat := Text.byteLength f.content

/-- The position of a byte: the line is the last one that starts at or before it. Neither number is
cut to 32 bits here. -/
def position (f : SourceFile) (offset : Nat) : Position :=
  let started := f.lineTable.takeWhile (· ≤ offset)
  ⟨started.length, offset - started.getLastD 0 + 1⟩

def locate (f : SourceFile) (s : Span) : Location :=
  ⟨f.path, f.position s.start, f.position (max (s.stop - 1) s.start)⟩

end SourceFile

end IncrementalBuild
