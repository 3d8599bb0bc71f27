import IncrementalBuild.Proofs.FileOrder
/-!
# Output sorted by path

Where files are ordered by their paths, the order of emission and the output files of a cycle are a
function of the files and their artifacts. The order in which the files were staged, and the
history of the cache that led to them, make no difference.
-/
namespace IncrementalBuild

namespace Cache

def emissionPaths (c : Cache) (policy : OrderingPolicy) : List Path :=
  (((ReferenceGraph.build c).order policy).files.filterMap c.file?).map SourceFile.path

/-- The paths of the committed cycle with their contents. -/
def contents (c : Cache) : List (Path × Text) := c.files.map fun f => (f.path, f.content)

/-- Two cycles have the same contents under the same paths. -/
def SameContents (c c' : Cache) : Prop := c.contents ⊆ c'.contents ∧ c'.contents ⊆ c.contents

/-- The file of a cycle that another cycle has under the same path has the same content. -/
theorem exists_of_contents {c c' : Cache} (h : c.contents ⊆ c'.contents) {f : SourceFile}
    (hf : f ∈ c.files) : ∃ g ∈ c'.files, g.path = f.path ∧ g.content = f.content := by
  obtain ⟨g, hg, heq⟩ := List.mem_map.mp (h (List.mem_map_of_mem hf))
  exact ⟨g, hg, congrArg Prod.fst heq, congrArg Prod.snd heq⟩

theorem WellFormed.emissionPaths_perm {c : Cache} (h : c.WellFormed) (policy : OrderingPolicy) :
    (c.emissionPaths policy).Perm (c.files.map SourceFile.path) :=
  (h.filterMap_file?_perm
    (ReferenceGraph.order_respects h.nodup_files_id h.nodup_files_path policy).every).map _

theorem WellFormed.nodup_components {c : Cache} (h : c.WellFormed) (hnormal : c.Normal) :
    ((c.files.map SourceFile.path).map Path.components).Nodup := by
  refine h.nodup_files_path.map_on fun p hp q hq hcomponents => ?_
  obtain ⟨f, hf, rfl⟩ := List.mem_map.mp hp
  obtain ⟨g, hg, rfl⟩ := List.mem_map.mp hq
  exact (h.files_normal hnormal hf).eq_of_same (h.files_normal hnormal hg)
    (Path.same_iff.mpr hcomponents)

theorem WellFormed.emissionPaths_eq {c : Cache} (h : c.WellFormed) (hacyclic : ¬ Looped c.files) :
    c.emissionPaths .path = ((ReferenceGraph.ofFiles c.files).referencesFirst
      ((ReferenceGraph.ofFiles c.files).roots .path)).filterMap
        ((c.files.map SourceFile.path)[·]?) := by
  have hcycles : (ReferenceGraph.build c).cycles = [] :=
    (ReferenceGraph.cycles_eq_nil_iff h.nodup_files_path).mpr hacyclic
  rw [emissionPaths, ReferenceGraph.order_of_acyclic hcycles, h.paths_idsOf]
  rfl

section
variable {c c' : Cache} (h : c.WellFormed) (h' : c'.WellFormed) (hsame : c.SameContents c')
include h h' hsame

theorem SameContents.reordered : Reordered c.files c'.files where
  once := h.nodup_files_path
  paths := by
    refine (List.perm_ext_iff_of_nodup h'.nodup_files_path h.nodup_files_path).mpr fun p => ?_
    simp only [List.mem_map]
    constructor
    · rintro ⟨f', hf', rfl⟩
      obtain ⟨f, hf, hpath, _⟩ := exists_of_contents hsame.2 hf'
      exact ⟨f, hf, hpath⟩
    · rintro ⟨f, hf, rfl⟩
      obtain ⟨f', hf', hpath, _⟩ := exists_of_contents hsame.1 hf
      exact ⟨f', hf', hpath⟩
  markers f hf f' hf' hpath := by
    obtain ⟨g', hg', hgpath, hcontent⟩ := exists_of_contents hsame.1 hf
    obtain rfl := List.inj_on_of_nodup_map h'.nodup_files_path hg' hf' (hgpath.trans hpath.symm)
    -- the markers are read off the content, under the id of the file
    rw [(h.files_made hf).references, (h'.files_made hg').references, hgpath, hcontent,
      Header.references_rename (fun _ => g'.id) f.id, List.map_map]
    rfl

variable (hnormal : c.Normal)
include hnormal

/-- The files are visited in one order, whatever the places they were staged at. -/
theorem SameContents.emissionPaths_eq (hacyclic : ¬ Looped c.files) :
    c'.emissionPaths .path = c.emissionPaths .path := by
  have hreordered := hsame.reordered h h'
  have hpaths : ∀ p ∈ c.files.map SourceFile.path, ∀ q ∈ c.files.map SourceFile.path,
      p.same q → p = q := fun p hp q hq hsame =>
    List.inj_on_of_nodup_map (h.nodup_components hnormal) hp hq (Path.same_iff.mp hsame)
  rw [h.emissionPaths_eq hacyclic, h'.emissionPaths_eq (mt hreordered.looped hacyclic),
    ReferenceGraph.referencesFirst_renumber hreordered hpaths, List.filterMap_map]
  exact List.filterMap_congr fun i _ => getElem?_renumber hreordered.paths i

end

end Cache

/-! ## Artifacts -/

namespace Assembly

/-- One artifact for each of these paths, and no other. -/
def OneEach (artifacts : List Artifact) (paths : List Path) : Prop :=
  (artifacts.map fun x => x.source.components).Perm (paths.map Path.components)

theorem OneEach.pick_eq {artifacts : List Artifact} {paths : List Path}
    (hone : OneEach artifacts paths) (hpaths : (paths.map Path.components).Nodup) :
    pick paths artifacts = (paths.filterMap fun p => artifacts.find? (·.source.same p), []) := by
  have hdistinct : paths.Pairwise fun p q => ¬ p.same q := by
    refine (List.pairwise_map.mp hpaths).imp fun hne hsame => hne (Path.same_iff.mp hsame)
  rw [Assembly.pick_eq hdistinct]
  congr 1
  rw [List.filter_eq_nil_iff]
  intro x hx
  obtain ⟨p, hp, hpx⟩ := List.mem_map.mp (hone.mem_iff.mp (List.mem_map_of_mem hx))
  have hany : paths.any x.source.same = true :=
    List.any_eq_true.mpr ⟨p, hp, Path.same_iff.mpr hpx.symm⟩
  simp [hany]

theorem OneEach.pick_perm {artifacts artifacts' : List Artifact} {paths : List Path}
    (hone : OneEach artifacts paths) (hpaths : (paths.map Path.components).Nodup)
    (hperm : artifacts'.Perm artifacts) : pick paths artifacts' = pick paths artifacts := by
  have hone' : OneEach artifacts' paths := (hperm.map _).trans hone
  rw [hone.pick_eq hpaths, hone'.pick_eq hpaths]
  congr 1
  apply List.filterMap_congr
  intro p _
  have hkey : (fun x : Artifact => x.source.same p) =
      fun x : Artifact => decide (x.source.components = p.components) :=
    funext fun x => Bool.eq_iff_iff.mpr (Path.same_iff.trans decide_eq_true_iff.symm)
  rw [hkey]
  exact find?_key_perm (hone.nodup_iff.mpr hpaths) hperm p.components

end Assembly

namespace Cache

/-- Any two committed cycles that hold the same contents under the same paths, whatever led to
them, are emitted in the same order of paths, if no file leads back to itself and files are ordered
by path. With one artifact for each file, the output files of a bundle or of sorted output are the
same and in the same order. -/
theorem output_of_contents (steps steps' : List CacheStep)
    (hsame : (runSteps steps).SameContents (runSteps steps'))
    (hacyclic : ¬ Looped (runSteps steps).files) :
    (runSteps steps').emissionPaths .path = (runSteps steps).emissionPaths .path ∧
    ∀ (config : BuildConfiguration) (result result' : CompileResult),
      (config.singleOutput || config.settings.sortOutput) = true →
      config.settings.ordering = .path →
      Assembly.OneEach result.artifacts ((runSteps steps).files.map SourceFile.path) →
      result'.artifacts.Perm result.artifacts →
      (Assembly.new (runSteps steps') config result').outputs =
        (Assembly.new (runSteps steps) config result).outputs := by
  have h := runSteps_sound steps
  have h' := runSteps_sound steps'
  have hpaths := hsame.emissionPaths_eq h.toWellFormed h'.toWellFormed (runSteps_normal steps)
    hacyclic
  refine ⟨hpaths, fun config result result' hmode hordering hone hperm => ?_⟩
  have hartifacts : ∀ (c : Cache) (r : CompileResult), (Assembly.new c config r).artifacts =
      (Assembly.pick (c.emissionPaths .path) r.artifacts).1 ++
        (Assembly.pick (c.emissionPaths .path) r.artifacts).2 := by
    intro c r
    rw [Assembly.new_artifacts, Assembly.orderOf, if_pos hmode, hordering]
    rfl
  -- each path of the order is the path of one file, and so of one artifact
  have hevery := (h.emissionPaths_perm .path).map Path.components
  have hone : Assembly.OneEach result.artifacts ((runSteps steps).emissionPaths .path) :=
    hone.trans hevery.symm
  have hdistinct := hevery.nodup_iff.mpr (h.nodup_components (runSteps_normal steps))
  have heq : (Assembly.new (runSteps steps') config result').artifacts =
      (Assembly.new (runSteps steps) config result).artifacts := by
    rw [hartifacts, hartifacts, hpaths, hone.pick_perm hdistinct hperm]
  unfold Assembly.outputs
  rw [heq]
  rfl

/-- Two files of which one refers to the other, staged in both orders. -/
theorem output_of_contents_reversed :
    let a : CacheStep := .upsert "/p/a.ts" "/// <reference path=\"c.ts\" />\nlet a;".toList
    let c : CacheStep := .upsert "/p/c.ts" "let c;".toList
    let config := BuildConfiguration.of "/p/project.json" .empty ⟨false, true, .path⟩
    let x : Artifact := ⟨"/p/a.ts", some "var a;".toList, none⟩
    let z : Artifact := ⟨"/p/c.ts", some "var c;".toList, none⟩
    (runSteps [a, c, .reset]).files.map SourceFile.path =
      (runSteps [c, a, .reset]).files.reverse.map SourceFile.path ∧
    (runSteps [c, a, .reset]).emissionPaths .path =
      (runSteps [a, c, .reset]).emissionPaths .path ∧
    (Assembly.new (runSteps [c, a, .reset]) config ⟨[z, x], []⟩).outputs =
      (Assembly.new (runSteps [a, c, .reset]) config ⟨[x, z], []⟩).outputs := by
  intro a c config x z
  have hsame : (runSteps [a, c, .reset]).SameContents (runSteps [c, a, .reset]) := by
    unfold SameContents
    decide +kernel
  have hacyclic : ¬ Looped (runSteps [a, c, .reset]).files := by
    rw [← ReferenceGraph.cycles_eq_nil_iff (runSteps_sound _).nodup_files_path]
    decide +kernel
  have hone : Assembly.OneEach [x, z] ((runSteps [a, c, .reset]).files.map SourceFile.path) := by
    unfold Assembly.OneEach
    decide +kernel
  obtain ⟨hpaths, houtputs⟩ := output_of_contents [a, c, .reset] [c, a, .reset] hsame hacyclic
  exact ⟨by decide +kernel, hpaths,
    houtputs config ⟨[x, z], []⟩ ⟨[z, x], []⟩ rfl rfl hone (List.Perm.swap ..)⟩

end Cache

end IncrementalBuild
