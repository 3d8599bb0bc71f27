import IncrementalBuild.Proofs.FileReferences
import IncrementalBuild.Proofs.ReachableCaches
/-!
# Reports of cycles

The cycles that are reported are those of the tangles of the files, in the order of their first
files. A report starts at the first file of its tangle and lists each reference inside the tangle
once, by file and then as they are written, with the span of the first marker.
-/
namespace IncrementalBuild

/-- The steps from a file to other files of a component, by their first markers. -/
def stepsWithin (component : List SourceFile) (a : SourceFile) : List CycleStep :=
  ((firstMarkers a.references).filter fun r =>
    component.any fun b => b ≠ a ∧ b.path = r.path).map fun r => ⟨a.path, r.span, r.path⟩

/-- What a reported cycle says of a component. -/
structure ReferenceCycle.Reports (cycle : ReferenceCycle) (component : List SourceFile) : Prop where
  start : cycle.members.head?.map CycleStep.path = component.head?.map SourceFile.path
  ordered : cycle.references = component.flatMap (stepsWithin component)
  step_iff : ∀ s, s ∈ cycle.references ↔ ∃ a ∈ component, ∃ b ∈ component, a ≠ b ∧
    ∃ r, a.references.find? (·.path = b.path) = some r ∧ s = ⟨a.path, r.span, b.path⟩
  once : (cycle.references.map fun s => (s.path, s.target)).Nodup

theorem ReferenceCycle.diagnostic_code (cycle : ReferenceCycle) :
    cycle.diagnostic.code.text = "O001".toList := by
  show DiagnosticCode.cyclicReference.text = _
  decide +kernel

/-! ## Steps within a component -/

theorem mem_stepsWithin {component : List SourceFile} {a : SourceFile} {s : CycleStep} :
    s ∈ stepsWithin component a ↔ ∃ b ∈ component, a ≠ b ∧
      ∃ r, a.references.find? (·.path = b.path) = some r ∧ s = ⟨a.path, r.span, b.path⟩ := by
  simp only [stepsWithin, List.mem_map, List.mem_filter, mem_firstMarkers, List.any_eq_true,
    decide_eq_true_eq]
  constructor
  · rintro ⟨r, ⟨hfind, b, hb, hba, hpath⟩, rfl⟩
    exact ⟨b, hb, hba.symm, r, hpath ▸ hfind, hpath ▸ rfl⟩
  · rintro ⟨b, hb, hab, r, hfind, rfl⟩
    have hpath : r.path = b.path := by simpa using List.find?_some hfind
    exact ⟨r, ⟨hpath ▸ hfind, b, hb, hab.symm, hpath.symm⟩, hpath ▸ rfl⟩

theorem nodup_stepsWithin (component : List SourceFile) (a : SourceFile) :
    ((stepsWithin component a).map fun s => (s.path, s.target)).Nodup := by
  -- the targets alone differ, since they are paths of first markers
  apply List.Nodup.of_map Prod.snd
  unfold stepsWithin
  rw [List.map_map, List.map_map]
  exact (nodup_firstMarkers a.references).sublist (List.filter_sublist.map Reference.path)

theorem nodup_steps {component : List SourceFile}
    (hpaths : (component.map SourceFile.path).Nodup) :
    ((component.flatMap (stepsWithin component)).map fun s => (s.path, s.target)).Nodup := by
  rw [List.map_flatMap, List.nodup_flatMap]
  refine ⟨fun a _ => nodup_stepsWithin component a, ?_⟩
  refine (List.pairwise_map.mp hpaths).imp fun hne => ?_
  intro pair ha hb
  obtain ⟨s, hs, rfl⟩ := List.mem_map.mp ha
  obtain ⟨t, ht, heq⟩ := List.mem_map.mp hb
  obtain ⟨_, _, _, _, _, rfl⟩ := mem_stepsWithin.mp hs
  obtain ⟨_, _, _, _, _, rfl⟩ := mem_stepsWithin.mp ht
  exact hne (Prod.mk.inj heq).1.symm

namespace ReferenceGraph

/-! ## Reports -/

/-- What is reported of a component of a graph. -/
def report (g : ReferenceGraph) (component : List Nat) : ReferenceCycle :=
  ⟨g.walk component (component.length + 1) [] (component.headD 0), g.inner component⟩

theorem cycles_eq (g : ReferenceGraph) : g.cycles = g.tangles.map g.report := rfl

/-- A walk starts at its first node, if that has a reference inside the component. -/
theorem walk_head {g : ReferenceGraph} {component : List Nat} {i j : Nat} (hj : j ∈ component)
    (hij : g.Edge i j) (bound : Nat) :
    ∃ l, (g.walk component (bound + 1) [] i).head? = some (g.step i l) := by
  obtain ⟨l, hl, rfl⟩ := List.mem_map.mp hij
  have hsome : ((g.links i).find? (·.target ∈ component)).isSome :=
    List.find?_isSome.mpr ⟨l, hl, decide_eq_true hj⟩
  obtain ⟨first, hfirst⟩ := Option.isSome_iff_exists.mp hsome
  refine ⟨first, ?_⟩
  rw [walk, if_neg List.not_mem_nil, hfirst]
  rfl

section
variable {files : List SourceFile}

theorem step_path {a : SourceFile} (ha : a ∈ files) (l : Link) :
    ((ofFiles files).step (files.idxOf a) l).path = a.path := by
  simp [step, node_ofFiles (List.getElem?_idxOf ha)]

theorem step_file {a b : SourceFile} (ha : a ∈ files) (hb : b ∈ files) (span : Span) :
    (ofFiles files).step (files.idxOf a) ⟨files.idxOf b, span⟩ = ⟨a.path, span, b.path⟩ := by
  simp [step, node_ofFiles (List.getElem?_idxOf ha), node_ofFiles (List.getElem?_idxOf hb)]

variable (hpaths : (files.map SourceFile.path).Nodup) {component : List SourceFile}
  (hsub : component ⊆ files)
include hpaths hsub

/-- A link stays inside the component if its reference names another file of it. -/
theorem target_mem_iff {a b : SourceFile} {r : Reference} (hb : b ∈ files) (hba : b ≠ a)
    (hpath : b.path = r.path) : files.idxOf b ∈ component.map files.idxOf ↔
      component.any fun b => b ≠ a ∧ b.path = r.path := by
  simp only [List.any_eq_true, decide_eq_true_eq, List.mem_map]
  constructor
  · rintro ⟨b', hb', heq⟩
    obtain rfl := (List.idxOf_inj (hsub hb')).mp heq
    exact ⟨b', hb', hba, hpath⟩
  · rintro ⟨b', hb', _, hpath'⟩
    obtain rfl := List.inj_on_of_nodup_map hpaths (hsub hb') hb (hpath'.trans hpath.symm)
    exact ⟨b', hb', rfl⟩

/-- A first marker gives the step of its link, or nothing if the link leaves the component. -/
theorem marker_step {a : SourceFile} (ha : a ∈ files) (r : Reference) :
    ((link? (files.map SourceFile.path) (files.idxOf a) r).filter
      (·.target ∈ component.map files.idxOf)).map ((ofFiles files).step (files.idxOf a)) =
    if component.any fun b => b ≠ a ∧ b.path = r.path then some ⟨a.path, r.span, r.path⟩
    else none := by
  cases hl : link? (files.map SourceFile.path) (files.idxOf a) r with
  | none =>
    have hnone : ¬ component.any fun b => b ≠ a ∧ b.path = r.path := by
      simp only [List.any_eq_true, decide_eq_true_eq]
      rintro ⟨b, hb, hba, hpath⟩
      have hsome := (link?_idxOf hpaths).mpr ⟨b, hsub hb, hba, hpath, rfl⟩
      rw [hl] at hsome
      cases hsome
    rw [if_neg hnone]
    rfl
  | some l =>
    obtain ⟨b, hb, hba, hpath, rfl⟩ := (link?_idxOf hpaths).mp hl
    simp only [Option.filter_some, decide_eq_true_eq,
      target_mem_iff hpaths hsub hb hba hpath]
    split
    · rw [Option.map_some, step_file ha hb, hpath]
    · rfl

theorem inner_file {a : SourceFile} (ha : a ∈ files) :
    (((ofFiles files).links (files.idxOf a)).filter (·.target ∈ component.map files.idxOf)).map
      ((ofFiles files).step (files.idxOf a)) = stepsWithin component a := by
  rw [links_of_file (List.getElem?_idxOf ha), List.filter_filterMap, List.map_filterMap,
    List.filterMap_congr fun r _ => marker_step hpaths hsub ha r, stepsWithin,
    ← List.filterMap_filter, ← List.filterMap_eq_map]
  rfl

/-- The references that are listed are the first markers for files of the component. -/
theorem inner_files :
    (ofFiles files).inner (component.map files.idxOf) =
      component.flatMap (stepsWithin component) := by
  unfold inner
  rw [List.flatMap_map]
  apply List.flatMap_congr
  intro a ha
  exact inner_file hpaths hsub (hsub ha)

end

theorem reports_tangle {files : List SourceFile} (hpaths : (files.map SourceFile.path).Nodup)
    {component : List SourceFile} (h : IsTangle (Refers files) files component) :
    ((ofFiles files).report (component.map files.idxOf)).Reports component := by
  have hordered := inner_files hpaths h.sorted.subset
  refine ⟨?_, hordered, fun s => ?_, ?_⟩
  · obtain ⟨a, rest, rfl⟩ := h.exists_cons
    obtain ⟨b, hb, hab⟩ := h.exists_step hpaths.of_map List.mem_cons_self
    have hedge := ((ofFiles_carries hpaths).push a b hab).2.2
    have hin := List.mem_map_of_mem (f := files.idxOf) hb
    obtain ⟨l, hl⟩ := walk_head hin hedge (a :: rest).length
    have hstart : ((ofFiles files).report ((a :: rest).map files.idxOf)).members.head? =
        some ((ofFiles files).step (files.idxOf a) l) := by
      rw [← hl, report, List.length_map]
      rfl
    rw [hstart, Option.map_some, step_path hab.1]
    rfl
  · show s ∈ (ofFiles files).inner _ ↔ _
    rw [hordered, List.mem_flatMap]
    simp only [mem_stepsWithin]
  · show (((ofFiles files).inner _).map _).Nodup
    rw [hordered]
    exact nodup_steps (hpaths.sublist (h.sorted.map _))

/-! ## The reports of a graph -/

/-- The tangles of the files of a graph, in the order of the graph. -/
def fileTangles (files : List SourceFile) : List (List SourceFile) :=
  (ofFiles files).tangles.map fun c => c.filterMap (files[·]?)

section
variable {files : List SourceFile} (hpaths : (files.map SourceFile.path).Nodup)
include hpaths

/-- A tangle of the graph has the numbers of a tangle of files. -/
theorem exists_fileTangle {c : List Nat} (hc : c ∈ (ofFiles files).tangles) :
    ∃ component, IsTangle (Refers files) files component ∧ component.map files.idxOf = c := by
  rw [mem_tangles, ← idxOf_files hpaths] at hc
  exact (ofFiles_carries hpaths).isTangle_iff.mp hc

theorem mem_fileTangles {component : List SourceFile} :
    component ∈ fileTangles files ↔ IsTangle (Refers files) files component := by
  unfold fileTangles
  rw [List.mem_map]
  constructor
  · rintro ⟨c, hc, rfl⟩
    obtain ⟨component, h, rfl⟩ := exists_fileTangle hpaths hc
    rwa [filterMap_idxOf h.sorted.subset]
  · intro h
    refine ⟨component.map files.idxOf, ?_, filterMap_idxOf h.sorted.subset⟩
    rw [mem_tangles, ← idxOf_files hpaths]
    exact (ofFiles_carries hpaths).isTangle_iff.mpr ⟨component, h, rfl⟩

theorem nodup_fileTangles : (fileTangles files).Nodup := by
  refine tangles_nodup.map_on fun c hc d hd heq => ?_
  obtain ⟨component, h, rfl⟩ := exists_fileTangle hpaths hc
  obtain ⟨component', h', rfl⟩ := exists_fileTangle hpaths hd
  rw [filterMap_idxOf h.sorted.subset, filterMap_idxOf h'.sorted.subset] at heq
  rw [heq]

theorem fileTangles_heads : ((fileTangles files).filterMap List.head?).Sublist files := by
  have hhead : ∀ c ∈ (ofFiles files).tangles,
      (c.filterMap (files[·]?)).head? = files[c.headD 0]? := by
    intro c hc
    obtain ⟨component, h, rfl⟩ := exists_fileTangle hpaths hc
    obtain ⟨a, rest, rfl⟩ := h.exists_cons
    rw [filterMap_idxOf h.sorted.subset]
    exact (List.getElem?_idxOf (h.sorted.subset List.mem_cons_self)).symm
  have hsub := (tangles_heads (g := ofFiles files)).filterMap (files[·]?)
  rw [← idxOf_files hpaths, filterMap_idxOf (List.Subset.refl files), List.filterMap_map] at hsub
  unfold fileTangles
  rw [List.filterMap_map]
  exact List.filterMap_congr hhead ▸ hsub

theorem reports_fileTangles :
    List.Forall₂ ReferenceCycle.Reports (ofFiles files).cycles (fileTangles files) := by
  rw [cycles_eq, fileTangles, List.forall₂_map_left_iff, List.forall₂_map_right_iff,
    List.forall₂_same]
  intro c hc
  obtain ⟨component, h, rfl⟩ := exists_fileTangle hpaths hc
  rw [filterMap_idxOf h.sorted.subset]
  exact reports_tangle hpaths h

end

end ReferenceGraph

/-- The cycles that are reported for a reachable cache are those of its tangles of files, once
each and in the order of their first files, whatever order the components come in. There are none
if and only if no file leads back to itself. -/
theorem Cache.cycles_report_tangles (steps : List CacheStep) :
    let files := (Cache.runSteps steps).files
    let graph := ReferenceGraph.build (Cache.runSteps steps)
    ∃ tangles : List (List SourceFile),
      (∀ component, component ∈ tangles ↔ IsTangle (Refers files) files component) ∧
      tangles.Nodup ∧ (tangles.filterMap List.head?).Sublist files ∧
      List.Forall₂ ReferenceCycle.Reports graph.cycles tangles ∧
      (∃ parts, graph.Partition parts) ∧
      (∀ parts, graph.Partition parts →
        graph.cycles = (ReferenceGraph.arrange parts).map graph.report) ∧
      (graph.cycles = [] ↔ ¬ Looped files) := by
  intro files graph
  have hpaths : (files.map SourceFile.path).Nodup :=
    (Cache.runSteps_sound steps).toWellFormed.nodup_files_path
  refine ⟨ReferenceGraph.fileTangles files, fun _ => ReferenceGraph.mem_fileTangles hpaths,
    ReferenceGraph.nodup_fileTangles hpaths, ReferenceGraph.fileTangles_heads hpaths,
    ReferenceGraph.reports_fileTangles hpaths, graph.exists_partition, fun parts hparts => ?_,
    ReferenceGraph.cycles_eq_nil_iff hpaths⟩
  rw [ReferenceGraph.cycles_eq, hparts.arrange_eq]

end IncrementalBuild
