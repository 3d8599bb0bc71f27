import IncrementalBuild.Proofs.DiscoveryWarnings
import IncrementalBuild.Proofs.FailedReset
import IncrementalBuild.Proofs.FileReferences
import IncrementalBuild.Proofs.MarkerSpans
import IncrementalBuild.Proofs.ReachableCaches
/-!
# No reference is ignored

A reference of a file of a cycle either leads to a file of the cycle, and then it is the file
itself or an edge of the reference graph, or there is a warning with its span. The discovery looks
for it before the commit, in what is staged, and the graph after it, in what is committed.
-/
namespace IncrementalBuild

/-! ## Edges of the graph -/

namespace ReferenceGraph

/-- The references of a file in the graph are the ids of the files that it refers to. -/
theorem mem_references {files : List SourceFile} (hids : (files.map SourceFile.id).Nodup)
    (hpaths : (files.map SourceFile.path).Nodup) {a b : SourceFile} (hab : Refers files a b) :
    b.id ∈ (ofFiles files).references a.id := by
  have hnodes : (ofFiles files).nodes.map Node.id = files.map SourceFile.id :=
    calc (ofFiles files).nodes.map Node.id
      _ = files.zipIdx.map (SourceFile.id ∘ Prod.fst) := List.map_map
      _ = (files.zipIdx.map Prod.fst).map SourceFile.id := List.map_map.symm
      _ = files.map SourceFile.id := by rw [List.zipIdx_map_fst]
  have hedge := (edge_iff hpaths (List.getElem?_idxOf hab.1) (List.getElem?_idxOf hab.2.1)).mpr hab
  have ha := node_ofFiles (List.getElem?_idxOf hab.1)
  have hb := node_ofFiles (List.getElem?_idxOf hab.2.1)
  have hnodup : ((ofFiles files).nodes.map Node.id).Nodup := hnodes ▸ hids
  have hfind := find?_key_of_mem hnodup (List.mem_of_getElem? ha)
  unfold Edge targets links at hedge
  rw [ha] at hedge
  obtain ⟨l, hl, htarget⟩ := List.mem_map.mp hedge
  unfold references
  rw [hfind]
  refine List.mem_filterMap.mpr ⟨l, hl, ?_⟩
  rw [htarget, hb]
  rfl

end ReferenceGraph

/-! ## Diagnostics about references -/

/-- Whether a diagnostic is about references. -/
def Diagnostic.isResolution (d : Diagnostic) : Bool := d.code.category = .resolution

theorem Discovery.warning_isResolution (loader : Loader) (readFiles : Bool) (r : Reference) :
    (warning loader readFiles r).isResolution = true := by
  cases readFiles <;> rfl

theorem ReferenceCycle.diagnostic_isResolution (c : ReferenceCycle) :
    c.diagnostic.isResolution = false := rfl

namespace PassThrough

theorem conflicts_isResolution {file : FileId} {offset : Nat} {lines : List Text} :
    ∀ d ∈ conflicts file offset lines, d.isResolution = false := by
  induction lines generalizing offset with
  | nil => exact fun _ hd => absurd hd List.not_mem_nil
  | cons line rest ih =>
    unfold conflicts
    dsimp only
    split
    · intro d hd
      rcases List.mem_cons.mp hd with rfl | hd
      · rfl
      · exact ih d hd
    · exact ih

theorem compile_isResolution {sources : Cache} (hfiles : ∀ f ∈ sources.files, f.Made)
    {config : BuildConfiguration} {changes : ChangeSet} {m : Memo} (hm : m.Valid Set.univ)
    {result : CompileResult} (h : (compile config sources changes m).1 = .ok result) :
    ∀ d ∈ result.diagnostics, d.isResolution = false := by
  intro d hd
  obtain ⟨_, _, _, _, _, hd⟩ :=
    compile_passes hfiles (fun _ _ => Set.mem_univ _) config changes hm h d hd
  exact conflicts_isResolution d hd

end PassThrough

/-! ## References of a cycle -/

/-- The references in the headers of files that lead to none of the files. -/
def unresolved (files : List SourceFile) : List Reference :=
  (markers files).filter fun r => decide (r.path ∉ files.map SourceFile.path)

/-- The code of the warnings for references, when files outside the project are read or not. -/
def unresolvedCode (noExternalResolve : Bool) : DiagnosticCode :=
  if noExternalResolve then .unresolvedExternal else .missingReference

/-- Diagnostics account for the references of a cycle: each reference leads to a file of the cycle,
which is the file itself or a neighbour in the graph, or there is a warning with its span. The
diagnostics about references are one for each that leads nowhere, and no others; in files of less
than 4 GiB no two of these references have one span. -/
structure AccountsFor (loader : Loader) (noExternalResolve : Bool) (sources : Cache)
    (diagnostics : List Diagnostic) : Prop where
  heeded : ∀ f ∈ sources.files, ∀ r ∈ Header.references f.id f.path f.content,
    (∃ g ∈ sources.files, g.path = r.path ∧
      (g = f ∨ g.id ∈ (ReferenceGraph.build sources).references f.id)) ∨
    ∃ d ∈ diagnostics, d.severity = .warning ∧ d.code = unresolvedCode noExternalResolve ∧
      d.span = r.span
  once : (diagnostics.filter Diagnostic.isResolution).Perm
    ((unresolved sources.files).map (Discovery.warning loader (!noExternalResolve)))
  distinct : (∀ f ∈ sources.files, Text.byteLength f.content < UInt32.size) →
    ((unresolved sources.files).map Reference.span).Nodup

theorem Discovery.warning_eq (loader : Loader) (noExternalResolve : Bool) (r : Reference) :
    (warning loader (!noExternalResolve) r).severity = .warning ∧
      (warning loader (!noExternalResolve) r).code = unresolvedCode noExternalResolve ∧
      (warning loader (!noExternalResolve) r).span = r.span := by
  cases noExternalResolve <;> exact ⟨rfl, rfl, rfl⟩

theorem accountsFor_of_once {loader : Loader} {noExternalResolve : Bool} {sources : Cache}
    {diagnostics : List Diagnostic} (h : sources.Sound)
    (honce : (diagnostics.filter Diagnostic.isResolution).Perm
      ((unresolved sources.files).map (Discovery.warning loader (!noExternalResolve)))) :
    AccountsFor loader noExternalResolve sources diagnostics := by
  have hids := h.nodup_files_id
  refine ⟨fun f hf r hr => ?_, honce, fun hsize =>
    (nodup_markers hids hsize).sublist (List.filter_sublist.map _)⟩
  by_cases hpath : r.path ∈ sources.files.map SourceFile.path
  · obtain ⟨g, hg, hgr⟩ := List.mem_map.mp hpath
    refine Or.inl ⟨g, hg, hgr, ?_⟩
    by_cases hgf : g = f
    · exact Or.inl hgf
    · have hrefers : Refers sources.files f g :=
        ⟨hf, hg, Ne.symm hgf, r, (h.files_made hf).references ▸ hr, hgr.symm⟩
      exact Or.inr (ReferenceGraph.mem_references hids h.nodup_files_path hrefers)
  · have hunresolved : r ∈ unresolved sources.files :=
      List.mem_filter.mpr ⟨List.mem_flatMap.mpr ⟨f, hf, hr⟩, decide_eq_true hpath⟩
    have hwarned := honce.mem_iff.mpr (List.mem_map_of_mem hunresolved)
    exact Or.inr ⟨_, (List.mem_filter.mp hwarned).1,
      Discovery.warning_eq loader noExternalResolve r⟩

/-! ## What a reset accounts for -/

/-- The references of a commit that lead to no file of it are those of the staged files that lead
to no staged file. -/
theorem unresolved_commit {c : Cache} (h : c.Sound) : unresolved c.commit.files =
    (c.stagedFiles.flatMap SourceFile.references).filter fun r => !c.isStaged r.path := by
  have hmarkers : markers c.commit.files = c.stagedFiles.flatMap SourceFile.references :=
    calc markers c.commit.files
      _ = c.commit.files.flatMap SourceFile.references :=
        List.flatMap_congr fun f hf => (h.commit.files_made hf).references.symm
      _ = c.stagedFiles.flatMap SourceFile.references := by
        rw [List.flatMap_def, h.files_commit (g := SourceFile.references) fun _ _ => rfl,
          ← List.flatMap_def]
  have hpaths : c.commit.files.map SourceFile.path = c.stagedFiles.map SourceFile.path :=
    h.files_commit fun _ _ => rfl
  rw [unresolved, hmarkers, hpaths]
  apply List.filter_congr
  intro r hr
  obtain ⟨f, hf, hr⟩ := List.mem_flatMap.mp hr
  have hstaged := h.isStaged_iff (p := r.path)
  rw [(h.stagedFiles_made hf).reference_normal hr] at hstaged
  rw [Bool.eq_iff_iff, decide_eq_true_iff, Bool.not_eq_true', ← Bool.not_eq_true, hstaged]

namespace Session

/-- The diagnostics about references that a reset delivers are the warnings of its discovery. -/
theorem delivered_isResolution {ο : Type} {loader : Loader} {outlets : Outlets ο}
    {s : Session Memo} {o o' : ο} {output : CycleOutput} (h : s.cache.Sound)
    (hm : s.compilerState.Valid Set.univ)
    (hb : s.delivered PassThrough.compiler loader outlets o = (.ok output, o')) :
    (output.diagnostics.filter Diagnostic.isResolution).Perm (s.discover loader).log.held := by
  obtain ⟨result, stats, hresult, _, rfl⟩ := deliver_ok hb
  have hd := discover_sound loader h
  have hnone : ∀ d ∈ (Assembly.new (s.discover loader).cache.commit s.config result).diagnostics,
      ¬ d.isResolution = true := by
    intro d hin
    rw [Bool.not_eq_true]
    rcases List.mem_append.mp hin with hin | hin
    · exact PassThrough.compile_isResolution (fun f hf => hd.commit.files_made hf) hm hresult d hin
    · obtain ⟨c, _, rfl⟩ := List.mem_map.mp hin
      exact c.diagnostic_isResolution
  have hall : ∀ d ∈ (s.discover loader).log.held, d.isResolution = true := by
    intro d hin
    have hlog : (s.discover loader).log.held = _ :=
      Discovery.stageExternals_log loader s.config.settings.noExternalResolve h
    rw [hlog] at hin
    obtain ⟨r, _, rfl⟩ := List.mem_map.mp hin
    exact Discovery.warning_isResolution loader _ r
  refine ((List.mergeSort_perm _ _).filter _).trans (List.Perm.of_eq ?_)
  rw [DiagnosticLog.extend_held, List.filter_append, List.filter_eq_self.mpr hall,
    List.filter_eq_nil_iff.mpr hnone, List.append_nil]

/-- After any run of operations, whatever a cycle has among its diagnostics accounts for every
reference in the headers of its files. -/
theorem reset_accountsFor {contents : Set Text} {config : BuildConfiguration}
    {s s' : Session Memo} {T : List (Path × Text)}
    (h : Reached PassThrough.compilers contents config Memo.empty s T) {loader : Loader}
    {ο : Type} {outlets : Outlets ο} {o o' : ο} {output : CycleOutput}
    (hok : s.reset PassThrough.compiler loader outlets o = (.ok output, s', o')) :
    AccountsFor loader s.config.settings.noExternalResolve s'.cache output.diagnostics := by
  obtain ⟨hdelivered, rfl⟩ := reset_ok hok
  have hd := discover_sound loader h.sound
  have hm := (h.reports Memo.empty_valid PassThrough.compilers_honest).1
  refine accountsFor_of_once hd.commit ?_
  show List.Perm _ ((unresolved (s.discover loader).cache.commit.files).map _)
  rw [unresolved_commit hd]
  refine (delivered_isResolution h.sound hm hdelivered).trans (List.Perm.of_eq ?_)
  exact Discovery.stageExternals_log loader s.config.settings.noExternalResolve h.sound

/-- One of the two files of the library is gone. -/
theorem reset_accountsFor_of_linked : ∃ output s' o',
    linked.reset PassThrough.compiler (library.remove "/p/lib/c.ts").2
      (.pair Shelf.outlet Shelf.outlet) (.empty, .empty) = (.ok output, s', o') ∧
    (unresolved s'.cache.files).length = 1 ∧
    AccountsFor (library.remove "/p/lib/c.ts").2 linked.config.settings.noExternalResolve s'.cache
      output.diagnostics := by
  have hcomes : (linked.reset PassThrough.compiler (library.remove "/p/lib/c.ts").2
      (.pair Shelf.outlet Shelf.outlet) (.empty, .empty)).1.isOk = true := by decide +kernel
  have hone : (unresolved (linked.reset PassThrough.compiler (library.remove "/p/lib/c.ts").2
      (.pair Shelf.outlet Shelf.outlet) (.empty, .empty)).2.1.cache.files).length = 1 := by
    decide +kernel
  rcases hok : linked.reset PassThrough.compiler (library.remove "/p/lib/c.ts").2
    (.pair Shelf.outlet Shelf.outlet) (.empty, .empty) with ⟨result, s', o'⟩
  rw [hok] at hcomes hone
  cases result with
  | error e => cases hcomes
  | ok output => exact ⟨output, s', o', rfl, hone, reset_accountsFor linked_reached hok⟩

end Session

end IncrementalBuild
