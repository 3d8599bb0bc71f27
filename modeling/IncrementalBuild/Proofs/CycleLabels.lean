import IncrementalBuild.Proofs.DiagnosticPlaces
import IncrementalBuild.Proofs.ReportedWalks
/-!
# The labels of reported cycles

The error about a cycle labels every reference inside its tangle once. Its labels are made of two
lists: the first step of the walk, and the references of the component without that step. So each
reference has its label because the first step of the walk is one of them, and no second one
because none of the others looks like it.
-/
namespace IncrementalBuild

/-! ## Steps between files -/

/-- A step is that of the first reference of a file of a component to another file of it. -/
structure CycleStep.Joins (component : List SourceFile) (s : CycleStep) (a b : SourceFile) :
    Prop where
  source : a ∈ component
  target : b ∈ component
  ne : a ≠ b
  marker : ∃ r, a.references.find? (·.path = b.path) = some r ∧ s = ⟨a.path, r.span, b.path⟩

namespace CycleStep.Joins

variable {component : List SourceFile} {s t : CycleStep} {a b a' b' : SourceFile}
  (h : s.Joins component a b)
include h

theorem paths : s.path = a.path ∧ s.target = b.path := by
  obtain ⟨r, _, rfl⟩ := h.marker
  exact ⟨rfl, rfl⟩

theorem file (hmade : a.Made) : s.reference.file = a.id := by
  obtain ⟨r, hfind, rfl⟩ := h.marker
  have hr := List.mem_of_find?_eq_some hfind
  rw [hmade.references] at hr
  exact Header.references_file hr

/-- In a file of less than 4 GiB the span of a step covers the path of its reference. -/
theorem covers (hmade : a.Made) (hsize : Text.byteLength a.content < UInt32.size) :
    ∃ piece, a.Covers s.reference piece ∧
      (a.path.parent?.getD ⟨[]⟩).resolve ⟨piece⟩ = b.path := by
  obtain ⟨r, hfind, rfl⟩ := h.marker
  have hr := List.mem_of_find?_eq_some hfind
  have hpath : r.path = b.path := by simpa using List.find?_some hfind
  rw [hmade.references] at hr
  obtain ⟨hcovers, hresolves⟩ := Header.references_covers hr
  exact ⟨r.raw, hcovers.of_content hsize, hresolves.symm.trans hpath⟩

theorem refers {files : List SourceFile} (hsub : component ⊆ files) : Refers files a b := by
  obtain ⟨r, hfind, _⟩ := h.marker
  have hpath : r.path = b.path := by simpa using List.find?_some hfind
  exact ⟨hsub h.source, hsub h.target, h.ne, r, List.mem_of_find?_eq_some hfind, hpath⟩

/-- Steps between the same paths are steps between the same files, by the same reference. -/
theorem eq (hpaths : (component.map SourceFile.path).Nodup) (h' : t.Joins component a' b')
    (hsource : s.path = t.path) (htarget : s.target = t.target) : a = a' ∧ b = b' ∧ s = t := by
  rw [h.paths.1, h'.paths.1] at hsource
  rw [h.paths.2, h'.paths.2] at htarget
  obtain rfl := List.inj_on_of_nodup_map hpaths h.source h'.source hsource
  obtain rfl := List.inj_on_of_nodup_map hpaths h.target h'.target htarget
  obtain ⟨r, hr, rfl⟩ := h.marker
  obtain ⟨r', hr', rfl⟩ := h'.marker
  cases hr.symm.trans hr'
  exact ⟨rfl, rfl, rfl⟩

/-- Among files under paths in normal form, steps that look the same are the same. -/
theorem eq_of_same (hnormal : ∀ f ∈ component, f.path.IsNormal)
    (hpaths : (component.map SourceFile.path).Nodup) (h' : t.Joins component a' b')
    (hsame : s.same t = true) : s = t := by
  simp only [CycleStep.same, Bool.and_eq_true, h.paths, h'.paths] at hsame
  have hsource := (hnormal a h.source).eq_of_same (hnormal a' h'.source) hsame.1.1
  have htarget := (hnormal b h.target).eq_of_same (hnormal b' h'.target) hsame.2
  rw [← h.paths.1, ← h'.paths.1] at hsource
  rw [← h.paths.2, ← h'.paths.2] at htarget
  exact (h.eq hpaths h' hsource htarget).2.2

end CycleStep.Joins

/-- A file of a component that refers to another one has a step to it. -/
theorem Refers.exists_joins {files component : List SourceFile} {a b : SourceFile}
    (h : Refers files a b) (ha : a ∈ component) (hb : b ∈ component) :
    ∃ s : CycleStep, s.Joins component a b := by
  obtain ⟨first, hfirst⟩ := h.exists_first
  exact ⟨_, ha, hb, h.2.2.1, first, hfirst, rfl⟩

namespace ReferenceCycle

variable {cycle : ReferenceCycle} {component : List SourceFile}

theorem Reports.mem_iff (h : cycle.Reports component) {s : CycleStep} :
    s ∈ cycle.references ↔ ∃ a b, s.Joins component a b := by
  rw [h.step_iff]
  constructor
  · rintro ⟨a, ha, b, hb, hne, hmarker⟩
    exact ⟨a, b, ha, hb, hne, hmarker⟩
  · rintro ⟨a, b, ha, hb, hne, hmarker⟩
    exact ⟨a, ha, b, hb, hne, hmarker⟩

/-! ## What is labelled -/

/-- The steps that the error about a cycle labels: the first step of the walk, and then the other
references of the component. -/
theorem Reports.labelled (h : cycle.Reports component) (hwinds : Winds component cycle.members)
    (hpaths : (component.map SourceFile.path).Nodup)
    (hnormal : ∀ f ∈ component, f.path.IsNormal) :
    ∃ first others, cycle.members.head? = some first ∧
      cycle.diagnostic.labels = label .primary first :: others.map (label .secondary) ∧
      (first :: others).Perm cycle.references := by
  obtain ⟨first, rest, hmembers⟩ := List.exists_cons_of_ne_nil hwinds.nonempty
  have hhead : cycle.members.head? = some first := by rw [hmembers, List.head?_cons]
  have hfirst : first ∈ cycle.references :=
    h.step_iff _ |>.mpr (hwinds.real first (List.mem_of_head? hhead))
  have hsteps : (if cycle.references.isEmpty then cycle.members else cycle.references) =
      cycle.references := if_neg (by simp [List.ne_nil_of_mem hfirst])
  obtain ⟨a, b, hjoins⟩ := h.mem_iff.mp hfirst
  -- the comparison of steps takes out the first step and no other one
  have hfilter : (cycle.references.filter fun s => !cycle.members.head?.any s.same) =
      cycle.references.erase first := by
    rw [h.once.of_map.erase_eq_filter, hhead]
    apply List.filter_congr
    intro s hs
    obtain ⟨a', b', hs'⟩ := h.mem_iff.mp hs
    have hsame : s.same first = true ↔ s = first :=
      ⟨hs'.eq_of_same hnormal hpaths hjoins, fun heq => by simp [heq, CycleStep.same, Path.same]⟩
    rw [Option.any_some, bne, Bool.not_inj_iff, Bool.eq_iff_iff, hsame, beq_iff_eq]
  refine ⟨first, cycle.references.erase first, hhead, ?_, (List.perm_cons_erase hfirst).symm⟩
  rw [(diagnostic_eq hhead).2, hsteps, hfilter]

end ReferenceCycle

/-- A label points from a file at another one: its span is one of the file, and its message names
the path of the other. If the file has less than 4 GiB, then the span covers a piece of it that
leads, from the directory of the file, to that path. -/
structure Label.Points (l : Label) (a b : SourceFile) : Prop where
  file : l.span.file = a.id
  covers : Text.byteLength a.content < UInt32.size → ∃ piece, a.Covers l.span piece ∧
    (a.path.parent?.getD ⟨[]⟩).resolve ⟨piece⟩ = b.path
  message : l.message = "references `".toList ++ b.path.text ++ "`".toList

/-- A diagnostic is the error about a component. Its labels are one for each two files of the
component of which the first refers to the second. The first label alone is primary, and it stands
where the diagnostic does, in the first file of the component. -/
structure Diagnostic.LabelsTangle (d : Diagnostic) (files component : List SourceFile) : Prop where
  severity : d.severity = .error
  code : d.code.text = "O001".toList
  labels : ∃ pairs : List (SourceFile × SourceFile),
    List.Forall₂ (fun l pair => l.Points pair.1 pair.2) d.labels pairs ∧ pairs.Nodup ∧
      ∀ a b, (a, b) ∈ pairs ↔ a ∈ component ∧ b ∈ component ∧ Refers files a b
  primary : ∃ first others, d.labels = first :: others ∧ first.style = .primary ∧
    first.span = d.span ∧ ∀ l ∈ others, l.style = .secondary
  place : ∃ a, component.head? = some a ∧ d.span.file = a.id ∧
    (Text.byteLength a.content < UInt32.size → ∃ piece, a.Covers d.span piece)

theorem CycleStep.Joins.points {component : List SourceFile} {s : CycleStep} {a b : SourceFile}
    (h : s.Joins component a b) (hmade : a.Made) (style : LabelStyle) :
    (ReferenceCycle.label style s).Points a b := by
  refine ⟨h.file hmade, h.covers hmade, ?_⟩
  rw [ReferenceCycle.label, h.paths.2]

/-! ## The files of steps -/

section
variable {component : List SourceFile} {steps : List CycleStep}
  {ends : CycleStep → SourceFile × SourceFile}
  (hends : ∀ s ∈ steps, s.Joins component (ends s).1 (ends s).2)
include hends

theorem nodup_ends (honce : (steps.map fun s => (s.path, s.target)).Nodup) :
    (steps.map ends).Nodup := by
  have hnames : (steps.map ends).map (fun pair => (pair.1.path, pair.2.path)) =
      steps.map fun s => (s.path, s.target) := by
    rw [List.map_map]
    apply List.map_congr_left
    intro s hs
    rw [(hends s hs).paths.1, (hends s hs).paths.2]
    rfl
  exact List.Nodup.of_map (fun pair => (pair.1.path, pair.2.path)) (hnames ▸ honce)

/-- If all steps of a component are there, then so are the files of all its references. -/
theorem mem_ends_iff (hpaths : (component.map SourceFile.path).Nodup)
    (hall : ∀ {s : CycleStep} {a b : SourceFile}, s.Joins component a b → s ∈ steps)
    {files : List SourceFile} (hsub : component ⊆ files) {a b : SourceFile} :
    (a, b) ∈ steps.map ends ↔ a ∈ component ∧ b ∈ component ∧ Refers files a b := by
  rw [List.mem_map]
  constructor
  · rintro ⟨s, hs, heq⟩
    have hab := hends s hs
    rw [heq] at hab
    exact ⟨hab.source, hab.target, hab.refers hsub⟩
  · rintro ⟨ha, hb, hrefers⟩
    obtain ⟨s, hab⟩ := hrefers.exists_joins ha hb
    obtain ⟨hsource, htarget, _⟩ := (hends s (hall hab)).eq hpaths hab rfl rfl
    exact ⟨s, hall hab, Prod.ext hsource htarget⟩

end

namespace ReferenceCycle

variable {cycle : ReferenceCycle} {component : List SourceFile}

theorem Reports.head?_eq (h : cycle.Reports component)
    (hpaths : (component.map SourceFile.path).Nodup) {first : CycleStep}
    (hfirst : cycle.members.head? = some first) {a b : SourceFile}
    (hjoins : first.Joins component a b) : component.head? = some a := by
  have hstart := h.start
  rw [hfirst, Option.map_some, hjoins.paths.1] at hstart
  obtain ⟨c, hc, hpath⟩ := Option.map_eq_some_iff.mp hstart.symm
  rwa [List.inj_on_of_nodup_map hpaths (List.mem_of_head? hc) hjoins.source hpath] at hc

theorem Reports.labelsTangle (h : cycle.Reports component)
    (hwinds : Winds component cycle.members) {files : List SourceFile}
    (hsub : component ⊆ files) (hmade : ∀ f ∈ files, f.Made)
    (hnormal : ∀ f ∈ files, f.path.IsNormal) (hpaths : (component.map SourceFile.path).Nodup) :
    cycle.diagnostic.LabelsTangle files component := by
  obtain ⟨first, others, hfirst, hlabels, hperm⟩ :=
    h.labelled hwinds hpaths fun f hf => hnormal f (hsub hf)
  have hjoins : ∀ s ∈ first :: others, ∃ pair : SourceFile × SourceFile,
      s.Joins component pair.1 pair.2 := by
    intro s hs
    obtain ⟨a, b, hab⟩ := h.mem_iff.mp (hperm.mem_iff.mp hs)
    exact ⟨(a, b), hab⟩
  have hall : ∀ {s : CycleStep} {a b : SourceFile}, s.Joins component a b →
      s ∈ first :: others := fun hab => hperm.mem_iff.mpr (h.mem_iff.mpr ⟨_, _, hab⟩)
  have hinhabited : Nonempty (SourceFile × SourceFile) :=
    (hjoins first List.mem_cons_self).nonempty
  choose! ends hends using hjoins
  have hstart := hends first List.mem_cons_self
  have hstartMade := hmade _ (hsub hstart.source)
  have hspan : cycle.diagnostic.span = first.reference := (diagnostic_eq hfirst).1
  have honce : ((first :: others).map fun s => (s.path, s.target)).Nodup :=
    (hperm.map _).nodup_iff.mpr h.once
  have hpoints : List.Forall₂ (fun l pair => Label.Points l pair.1 pair.2)
      cycle.diagnostic.labels ((first :: others).map ends) := by
    rw [hlabels, List.map_cons]
    refine .cons (hstart.points hstartMade .primary) ?_
    rw [List.forall₂_map_left_iff, List.forall₂_map_right_iff, List.forall₂_same]
    intro s hs
    have hs := hends s (List.mem_cons_of_mem first hs)
    exact hs.points (hmade _ (hsub hs.source)) .secondary
  refine ⟨rfl, cycle.diagnostic_code, ⟨_, hpoints, nodup_ends hends honce,
    fun a b => mem_ends_iff hends hpaths hall hsub⟩, ⟨_, _, hlabels, rfl, hspan.symm, ?_⟩,
    ⟨_, h.head?_eq hpaths hfirst hstart, hspan ▸ hstart.file hstartMade, fun hsize => ?_⟩⟩
  · intro l hl
    obtain ⟨s, _, rfl⟩ := List.mem_map.mp hl
    rfl
  · obtain ⟨piece, hcovers, _⟩ := hstart.covers hstartMade hsize
    exact ⟨piece, hspan ▸ hcovers⟩

end ReferenceCycle

/-- Every cycle that is reported for a reachable cache is one of a tangle of its files, and the
error about it labels the references of the tangle, each of them once. The labels in files of less
than 4 GiB are at the paths that they name. -/
theorem Cache.cycles_label_references (steps : List CacheStep) :
    let files := (runSteps steps).files
    let graph := ReferenceGraph.build (runSteps steps)
    ∃ tangles : List (List SourceFile),
      (∀ component, component ∈ tangles ↔ IsTangle (Refers files) files component) ∧
      List.Forall₂ (fun cycle component =>
        (ReferenceCycle.diagnostic cycle).LabelsTangle files component) graph.cycles tangles := by
  intro files graph
  have hsound := runSteps_sound steps
  have hpaths : (files.map SourceFile.path).Nodup := hsound.nodup_files_path
  refine ⟨ReferenceGraph.fileTangles files, fun _ => ReferenceGraph.mem_fileTangles hpaths, ?_⟩
  show List.Forall₂ _ (ReferenceGraph.ofFiles files).cycles _
  rw [ReferenceGraph.cycles_eq, ReferenceGraph.fileTangles, List.forall₂_map_left_iff,
    List.forall₂_map_right_iff, List.forall₂_same]
  intro c hc
  obtain ⟨component, h, rfl⟩ := ReferenceGraph.exists_fileTangle hpaths hc
  rw [ReferenceGraph.filterMap_idxOf h.sorted.subset]
  exact (ReferenceGraph.reports_tangle hpaths h).labelsTangle
    (ReferenceGraph.report_winds hpaths h) h.sorted.subset (fun f hf => hsound.files_made hf)
    (fun f hf => hsound.files_normal (runSteps_normal steps) hf)
    (hpaths.sublist (h.sorted.map _))

/-! ## References without their label -/

/-- A text with a marker behind 4 GiB of blanks. -/
@[irreducible] def farMarker : Text :=
  List.replicate UInt32.size ' ' ++ '\n' :: "/// <reference path=\"b.ts\" />\n".toList

theorem SourceFile.Covers.unique {f : SourceFile} {span : Span} {piece piece' : Text}
    (h : f.Covers span piece) (h' : f.Covers span piece') : piece = piece' := by
  obtain ⟨before, after, heq, hstart, hstop⟩ := h.text
  obtain ⟨before', after', heq', hstart', hstop'⟩ := h'.text
  obtain ⟨rfl, hrest⟩ :=
    Text.append_inj_of_byteLength (heq.symm.trans heq') (hstart.trans hstart'.symm)
  rw [Text.byteLength_append] at hstop hstop'
  exact (Text.append_inj_of_byteLength hrest (by omega)).1

theorem exists_farMarker :
    ∃ rest, farMarker = List.replicate 22 ' ' ++ ("    ".toList ++ rest) := by
  have hsize : UInt32.size = 22 + (4 + (UInt32.size - 26)) := by decide
  rw [farMarker, hsize, List.replicate_add, List.replicate_add, List.append_assoc,
    List.append_assoc]
  exact ⟨_, rfl⟩

namespace Header

theorem references_blank_line (file : FileId) (p : Path) {line : Text}
    (hblank : Text.allBlank line = true) (hline : '\n' ∉ line) (t : Text) :
    references file p (line ++ '\n' :: t) = scan file (p.parent?.getD ⟨[]⟩) false
      (Text.byteLength line + 1) (Text.linesInclusive t) := by
  have hall : Text.allBlank (line ++ ['\n']) = true := by
    rw [Text.allBlank, List.all_append, Bool.and_eq_true]
    exact ⟨hblank, by decide⟩
  have htrim : Text.trim (line ++ ['\n']) = [] := by
    rw [Text.trim, Text.trimStart_eq_nil_iff.mpr hall]
    rfl
  rw [references, Text.linesInclusive_ended hline, scan]
  simp only [reference?, progress, htrim, lineKind, Text.byteLength_append, Nat.zero_add,
    Bool.false_eq_true, if_false]
  rfl

theorem references_farMarker :
    references 0 "/p/a.ts" farMarker = [⟨"b.ts".toList, "/p/b.ts", ⟨0, 22, 26⟩⟩] := by
  have hblank : Text.allBlank (List.replicate UInt32.size ' ') = true := by
    rw [Text.allBlank, List.all_replicate]
    decide
  have hline : '\n' ∉ List.replicate UInt32.size ' ' := fun hmem =>
    absurd (List.eq_of_mem_replicate hmem) (by decide)
  have hlength : Text.byteLength (List.replicate UInt32.size ' ') = UInt32.size := by
    rw [Text.byteLength_eq_length fun c hc => by rw [List.eq_of_mem_replicate hc]; rfl,
      List.length_replicate]
  rw [farMarker, references_blank_line 0 "/p/a.ts" hblank hline, hlength]
  decide +kernel

end Header

namespace Cache

/-- Two files that refer to each other, one of them behind 4 GiB of blanks. -/
def farSteps : List CacheStep :=
  [.upsert "/p/a.ts" farMarker,
    .upsert "/p/b.ts" "/// <reference path=\"a.ts\" />\n".toList, .reset]

theorem files_farSteps : (runSteps farSteps).files =
    [.ofContent 0 "/p/a.ts" farMarker 1,
      .ofContent 1 "/p/b.ts" "/// <reference path=\"a.ts\" />\n".toList 1] := rfl

theorem build_farSteps : ReferenceGraph.build (runSteps farSteps) =
    ⟨[⟨0, "/p/a.ts", [⟨1, ⟨0, 22, 26⟩⟩]⟩, ⟨1, "/p/b.ts", [⟨0, ⟨1, 21, 25⟩⟩]⟩]⟩ := by
  rw [ReferenceGraph.build, files_farSteps, ReferenceGraph.ofFiles]
  simp only [SourceFile.ofContent, List.map_cons, List.map_nil, List.zipIdx_cons, List.zipIdx_nil,
    Header.references_farMarker]
  decide +kernel

/-- Two files that refer to each other, the first of which refers to itself as well. -/
def selfSteps : List CacheStep :=
  [.upsert "/p/a.ts" "/// <reference path=\"a.ts\" />\n/// <reference path=\"b.ts\" />\n".toList,
    .upsert "/p/b.ts" "/// <reference path=\"a.ts\" />\n".toList, .reset]

/-- A reference of a file to itself has no label, and behind 4 GiB a label covers something else
than the path that it names. -/
theorem labels_omitted_or_lost :
    (∃ cycle ∈ (ReferenceGraph.build (runSteps selfSteps)).cycles,
    ∃ f ∈ (runSteps selfSteps).files,
      (∃ s ∈ cycle.members, s.path = f.path) ∧ (∃ r ∈ f.references, r.path = f.path) ∧
      ∀ l ∈ cycle.diagnostic.labels,
        l.span.file = f.id → l.message ≠ "references `".toList ++ f.path.text ++ "`".toList) ∧
    ∃ cycle ∈ (ReferenceGraph.build (runSteps farSteps)).cycles,
    ∃ l ∈ cycle.diagnostic.labels, ∃ f ∈ (runSteps farSteps).files,
      l.span.file = f.id ∧ l.message = "references `/p/b.ts`".toList ∧
      f.Covers l.span "    ".toList ∧
      ∀ piece, f.Covers l.span piece →
        (f.path.parent?.getD ⟨[]⟩).resolve ⟨piece⟩ ≠ "/p/b.ts" := by
  refine ⟨by decide +kernel, ?_⟩
  have hlabel : (ReferenceGraph.build (runSteps farSteps)).cycles.head?.bind
      (·.diagnostic.labels.head?) =
        some ⟨⟨0, 22, 26⟩, "references `/p/b.ts`".toList, .primary⟩ := by
    rw [build_farSteps]
    decide +kernel
  obtain ⟨cycle, hcycle, hlabel⟩ := Option.bind_eq_some_iff.mp hlabel
  obtain ⟨rest, hblanks⟩ := exists_farMarker
  have hcovers :
      (SourceFile.ofContent 0 "/p/a.ts" farMarker 1).Covers ⟨0, 22, 26⟩ "    ".toList := by
    refine ⟨rfl, by decide, ?_, ⟨_, _, hblanks, by decide, by decide⟩⟩
    show 26 ≤ Text.byteLength farMarker
    rw [hblanks, ← List.append_assoc, Text.byteLength_append]
    exact Nat.le_add_right 26 _
  refine ⟨cycle, List.mem_of_head? hcycle, _, List.mem_of_head? hlabel, _,
    files_farSteps ▸ List.mem_cons_self, rfl, rfl, hcovers, fun piece hpiece => ?_⟩
  rw [hpiece.unique hcovers]
  decide

end Cache

end IncrementalBuild
