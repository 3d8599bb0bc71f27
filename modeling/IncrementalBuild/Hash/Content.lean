import IncrementalBuild.Hash.Mixing
import IncrementalBuild.Text.Basic
/-!
# Content hashes

The hash by which a change of content is noticed. Two contents with one hash count as the same
content.
-/
namespace IncrementalBuild

structure ContentHash where
  halves : Hash.Halves
  deriving DecidableEq, Repr

namespace ContentHash

def ofBytes (bytes : ByteArray) : ContentHash := ⟨Hash.ofBytes bytes⟩

def ofText (t : Text) : ContentHash := ofBytes (String.ofList t).toUTF8

/-- The sixteen bytes of a hash, the low half first, each half from its low byte. -/
def bytes (h : ContentHash) : List Nat :=
  [h.halves.low, h.halves.high].flatMap fun half =>
    (List.range 8).map fun i => half.toNat >>> (8 * i) % 256

/-- The hash with the given sixteen bytes. -/
def ofByteValues (values : List Nat) : ContentHash :=
  let number (vs : List Nat) : UInt64 := (vs.foldr (fun v n => v + 256 * n) 0).toUInt64
  ⟨⟨number (values.take 8), number (values.drop 8)⟩⟩

def hexByte (n : Nat) : Text := [Nat.digitChar (n / 16), Nat.digitChar (n % 16)]

def hex (h : ContentHash) : Text := h.bytes.flatMap hexByte

/-- The first eight hexadecimal digits. -/
def short (h : ContentHash) : Text := h.hex.take 8

/-- The short form, marked as a shortened hash. -/
def summary (h : ContentHash) : Text := "ContentHash(" ++ h.short ++ "..)".toList

end ContentHash

end IncrementalBuild
