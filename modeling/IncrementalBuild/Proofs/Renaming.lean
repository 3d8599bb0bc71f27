import Mathlib.Data.Set.Function
import IncrementalBuild.Compile.PassThrough
import IncrementalBuild.Reference.Order
/-!
# Renaming files

Ids of files are names. What is read off the files of a cycle (references, analyses, the graph of
references, its order and its cycles) is the same under other names, but for the names. What is
stated besides: which files the spans in these results name.
-/
namespace IncrementalBuild

/-! ## Renamed values -/

def Span.rename (ρ : FileId → FileId) (s : Span) : Span := { s with file := ρ s.file }

def Reference.rename (ρ : FileId → FileId) (r : Reference) : Reference :=
  { r with span := r.span.rename ρ }

def Label.rename (ρ : FileId → FileId) (l : Label) : Label := { l with span := l.span.rename ρ }

def Diagnostic.rename (ρ : FileId → FileId) (d : Diagnostic) : Diagnostic :=
  { d with span := d.span.rename ρ, labels := d.labels.map (Label.rename ρ) }

def SourceFile.rename (ρ : FileId → FileId) (f : SourceFile) : SourceFile :=
  { f with id := ρ f.id, references := f.references.map (Reference.rename ρ) }

/-- A file without its version and its mark. -/
def SourceFile.bare (f : SourceFile) : SourceFile := { f with version := 0, external := false }

def Analysis.rename (ρ : FileId → FileId) (a : Analysis) : Analysis :=
  { a with id := ρ a.id, diagnostics := a.diagnostics.map (Diagnostic.rename ρ) }

def CompileResult.rename (ρ : FileId → FileId) (r : CompileResult) : CompileResult :=
  { r with diagnostics := r.diagnostics.map (Diagnostic.rename ρ) }

def CycleStep.rename (ρ : FileId → FileId) (s : CycleStep) : CycleStep :=
  { s with reference := s.reference.rename ρ }

def ReferenceCycle.rename (ρ : FileId → FileId) (c : ReferenceCycle) : ReferenceCycle :=
  ⟨c.members.map (CycleStep.rename ρ), c.references.map (CycleStep.rename ρ)⟩

def Link.rename (ρ : FileId → FileId) (l : Link) : Link := { l with span := l.span.rename ρ }

def Node.rename (ρ : FileId → FileId) (n : Node) : Node :=
  { n with id := ρ n.id, links := n.links.map (Link.rename ρ) }

def ReferenceGraph.rename (ρ : FileId → FileId) (g : ReferenceGraph) : ReferenceGraph :=
  ⟨g.nodes.map (Node.rename ρ)⟩

def OutputOrder.rename (ρ : FileId → FileId) (o : OutputOrder) : OutputOrder :=
  ⟨o.files.map ρ, o.cycles.map (ReferenceCycle.rename ρ)⟩

theorem Diagnostic.rename_id (d : Diagnostic) : d.rename id = d := by
  show { d with labels := d.labels.map id } = d
  rw [List.map_id]

/-- A diagnostic with no labels, about one file. -/
structure Diagnostic.About (d : Diagnostic) (file : FileId) : Prop where
  span : d.span.file = file
  labels : d.labels = []

variable (ρ : FileId → FileId)

/-! ## References and analyses -/

namespace Header

theorem reference?_rename (file : FileId) (directory : Path) (offset : Nat) (line : Text) :
    reference? (ρ file) directory offset line =
      (reference? file directory offset line).map (Reference.rename ρ) := by
  unfold reference?
  split
  · rw [Option.map_map]
    rfl
  · rfl

theorem scan_rename (file : FileId) (directory : Path) (inBlock : Bool) (offset : Nat)
    (lines : List Text) : scan (ρ file) directory inBlock offset lines =
      (scan file directory inBlock offset lines).map (Reference.rename ρ) := by
  induction lines generalizing inBlock offset with
  | nil => rfl
  | cons line rest ih =>
    have hhere : (if inBlock then none else reference? (ρ file) directory offset line).toList =
        (if inBlock then none else reference? file directory offset line).toList.map
          (Reference.rename ρ) := by
      cases inBlock with
      | true => rfl
      | false =>
        simp only [Bool.false_eq_true, if_false, reference?_rename]
        cases reference? file directory offset line <;> rfl
    simp only [scan, List.map_append, hhere]
    congr 1
    match progress inBlock line with
    | .outside => exact ih ..
    | .inside => exact ih ..
    | .over => rfl

theorem references_rename (file : FileId) (p : Path) (content : Text) :
    references (ρ file) p content = (references file p content).map (Reference.rename ρ) :=
  scan_rename ..

theorem references_file {file : FileId} {p : Path} {content : Text} {r : Reference}
    (hr : r ∈ references file p content) : r.span.file = file := by
  -- renaming every file to this one changes nothing
  have hsame := references_rename (fun _ => file) file p content
  rw [hsame] at hr
  obtain ⟨r, _, rfl⟩ := List.mem_map.mp hr
  rfl

end Header

namespace PassThrough

theorem conflicts_rename (file : FileId) (offset : Nat) (lines : List Text) :
    conflicts (ρ file) offset lines =
      (conflicts file offset lines).map (Diagnostic.rename ρ) := by
  induction lines generalizing offset with
  | nil => rfl
  | cons line rest ih =>
    simp only [conflicts, ih]
    split
    · rfl
    · rfl

theorem conflicts_about {file : FileId} {offset : Nat} {lines : List Text} {d : Diagnostic}
    (hd : d ∈ conflicts file offset lines) : d.About file := by
  induction lines generalizing offset with
  | nil => simp [conflicts] at hd
  | cons line rest ih =>
    simp only [conflicts] at hd
    split at hd
    · rcases List.mem_cons.mp hd with rfl | hd
      · exact ⟨rfl, rfl⟩
      · exact ih hd
    · exact ih hd

theorem analyze_bare (f : SourceFile) (declaration : Bool) :
    analyze f.bare declaration = analyze f declaration := rfl

theorem analyze_rename (f : SourceFile) (declaration : Bool) :
    analyze (f.rename ρ) declaration = (analyze f declaration).rename ρ := by
  have hlines : (f.references.map (Reference.rename ρ)).flatMap referenceLine =
      f.references.flatMap referenceLine := by
    rw [List.flatMap_map]
    rfl
  have hartifact : artifact (f.rename ρ) declaration = artifact f declaration := by
    unfold artifact declarationText SourceFile.rename
    rw [hlines]
    rfl
  unfold analyze
  rw [hartifact]
  simp only [Analysis.rename, ← conflicts_rename]
  rfl

theorem collect_rename (analyses : List Analysis) :
    collect (analyses.map (Analysis.rename ρ)) = (collect analyses).rename ρ := by
  have hstep : ∀ r : CompileResult,
      (analyses.map (Analysis.rename ρ)).foldl
        (fun r a => (r.insert a.artifact).report a.diagnostics) (r.rename ρ) =
      (analyses.foldl (fun r a => (r.insert a.artifact).report a.diagnostics) r).rename ρ := by
    induction analyses with
    | nil => exact fun r => rfl
    | cons a analyses ih =>
      intro r
      rw [List.map_cons, List.foldl_cons, List.foldl_cons, ← ih]
      congr 1
      simp [CompileResult.insert, CompileResult.report, CompileResult.rename, Analysis.rename]
  exact hstep .empty

theorem collect_diagnostics (analyses : List Analysis) :
    (collect analyses).diagnostics = analyses.flatMap Analysis.diagnostics := by
  have hstep : ∀ r : CompileResult,
      (analyses.foldl (fun r a => (r.insert a.artifact).report a.diagnostics) r).diagnostics =
      r.diagnostics ++ analyses.flatMap Analysis.diagnostics := by
    induction analyses with
    | nil => simp
    | cons a analyses ih =>
      intro r
      rw [List.foldl_cons, ih, List.flatMap_cons, ← List.append_assoc]
      rfl
  exact hstep .empty

end PassThrough

end IncrementalBuild
