import IncrementalBuild.Proofs.HeaderLines
import IncrementalBuild.Proofs.Renaming
import Mathlib.Data.List.Nodup
/-!
# The places of markers

The span of a marker covers its path as it is written, and no two markers of files of less than
4 GiB have one span. The span of a warning of the pass-through compiler covers the conflict marker
it warns of.
-/
namespace IncrementalBuild

/-- A span of a file covers a piece of a text, which starts at byte `offset` of the file, as far as
32 bits tell. -/
def Span.Covers (span : Span) (file : FileId) (offset : Nat) (t piece : Text) : Prop :=
  ∃ o, Text.At piece o t ∧
    span = .ofOffsets file (offset + o) (offset + o + Text.byteLength piece)

section
variable {span : Span} {file : FileId} {offset : Nat} {t piece : Text}

theorem Span.Covers.left (h : span.Covers file offset t piece) (after : Text) :
    span.Covers file offset (t ++ after) piece := by
  obtain ⟨o, hat, rfl⟩ := h
  have hmore := hat.append [] after
  rw [Text.byteLength_nil, Nat.zero_add] at hmore
  exact ⟨o, hmore, rfl⟩

theorem Span.Covers.right {before : Text}
    (h : span.Covers file (offset + Text.byteLength before) t piece) :
    span.Covers file offset (before ++ t) piece := by
  obtain ⟨o, hat, rfl⟩ := h
  have hmore := hat.append before []
  rw [List.append_nil] at hmore
  exact ⟨_, hmore, by simp only [Nat.add_assoc]⟩

end

namespace Header

/-! ## Markers of one header -/

/-- The span of a reference of a file covers its path in the content, which is read from the
directory of the file. -/
theorem references_covers {file : FileId} {p : Path} {content : Text} {r : Reference}
    (hr : r ∈ references file p content) :
    r.span.Covers file 0 content r.raw ∧ r.path = (p.parent?.getD ⟨[]⟩).resolve ⟨r.raw⟩ := by
  obtain ⟨before, m, after, _, hline, _, rfl⟩ := mem_references_iff.mp hr
  refine ⟨⟨_, Marker.at_of_isLine hline, ?_⟩, rfl⟩
  rw [Nat.zero_add]
  rfl

theorem nodup_span (file : FileId) (p : Path) {content : Text}
    (hsize : Text.byteLength content < UInt32.size) :
    ((references file p content).map Reference.span).Nodup := by
  rw [List.Nodup, List.pairwise_map]
  exact (references_sorted file p hsize).imp fun hlt heq =>
    Nat.ne_of_lt hlt (congrArg Span.start heq)

end Header

/-! ## Conflict markers -/

/-- A warning of the compiler covers a conflict marker, and says nothing else. -/
theorem PassThrough.conflicts_covers {file : FileId} {offset : Nat} {lines : List Text}
    {d : Diagnostic} (hd : d ∈ conflicts file offset lines) :
    d.span.Covers file offset lines.flatten conflictMarker ∧ d.code = .conflictMarker ∧
      d.labels = [] := by
  induction lines generalizing offset d with
  | nil => cases hd
  | cons line rest ih =>
    have hmore : ∀ d ∈ conflicts file (offset + Text.byteLength line) rest,
        d.span.Covers file offset (line ++ rest.flatten) conflictMarker ∧
          d.code = .conflictMarker ∧ d.labels = [] :=
      fun d hd => ⟨(ih hd).1.right, (ih hd).2⟩
    unfold conflicts at hd
    dsimp only at hd
    split at hd
    · next hmarker =>
      rcases List.mem_cons.mp hd with rfl | hd
      · obtain ⟨after, hafter⟩ := Option.isSome_iff_exists.mp hmarker
        have hat : Text.At conflictMarker 0 line := ⟨[], after, (Text.after?_eq hafter).symm, rfl⟩
        exact ⟨Span.Covers.left ⟨0, hat, rfl⟩ rest.flatten, rfl, rfl⟩
      · exact hmore d hd
    · exact hmore d hd

/-! ## Markers of many files -/

/-- The markers in the headers of files, in order. -/
def markers (files : List SourceFile) : List Reference :=
  files.flatMap fun f => Header.references f.id f.path f.content

theorem nodup_markers {files : List SourceFile} (h : (files.map SourceFile.id).Nodup)
    (hsize : ∀ f ∈ files, Text.byteLength f.content < UInt32.size) :
    ((markers files).map Reference.span).Nodup := by
  rw [markers, List.map_flatMap, List.nodup_flatMap]
  refine ⟨fun f hf => Header.nodup_span f.id f.path (hsize f hf), ?_⟩
  refine (List.pairwise_map.mp h).imp fun hne => List.disjoint_left.mpr fun s hs hs' => ?_
  obtain ⟨r, hr, rfl⟩ := List.mem_map.mp hs
  obtain ⟨r', hr', heq⟩ := List.mem_map.mp hs'
  apply hne
  rw [← Header.references_file hr, ← Header.references_file hr', heq]

end IncrementalBuild
