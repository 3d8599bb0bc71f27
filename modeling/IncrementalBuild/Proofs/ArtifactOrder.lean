import IncrementalBuild.Proofs.CycleReports
import IncrementalBuild.Proofs.SortedOutput
/-!
# The order of artifacts

A result of a compiler holds one artifact for each source, in the order of their paths. An
assembly only rearranges them: those of the files of the cycle come first, in the order in which
the files are emitted, and the others follow in the order of their paths. It adds to the diagnostics
one error for each reference cycle that it reports.
-/
namespace IncrementalBuild

/-! ## Results -/

/-- One path comes before another one, and they are not the same. -/
def Path.Precedes (p q : Path) : Prop := p.le q = true ∧ p.same q = false

theorem Path.precedes_iff {p q : Path} : p.Precedes q ↔ p.key < q.key := by
  rw [Precedes, lt_iff_le_and_ne, le_iff, Bool.eq_false_iff, ne_eq, same_iff_key]

/-- Artifacts in the order of their sources, one for each. -/
def Artifact.Sorted (artifacts : List Artifact) : Prop :=
  artifacts.Pairwise fun x y => x.source.Precedes y.source

theorem Artifact.mem_insert {a x : Artifact} {artifacts : List Artifact}
    (hx : x ∈ a.insert artifacts) : x = a ∨ x ∈ artifacts := by
  induction artifacts with
  | nil => exact Or.inl (List.mem_singleton.mp hx)
  | cons b rest ih =>
    unfold insert at hx
    split at hx
    · exact (List.mem_cons.mp hx).imp_right (List.mem_cons_of_mem b)
    · split at hx
      · exact List.mem_cons.mp hx
      · rcases List.mem_cons.mp hx with rfl | hx
        · exact Or.inr List.mem_cons_self
        · exact (ih hx).imp_right (List.mem_cons_of_mem b)

theorem Artifact.Sorted.insert {artifacts : List Artifact} (h : Sorted artifacts) (a : Artifact) :
    Sorted (a.insert artifacts) := by
  induction artifacts with
  | nil => exact List.pairwise_singleton _ _
  | cons b rest ih =>
    obtain ⟨hb, hrest⟩ := List.pairwise_cons.mp h
    have hkey : ∀ x ∈ rest, b.source.key < x.source.key := fun x hx =>
      Path.precedes_iff.mp (hb x hx)
    unfold Artifact.insert
    split
    · next hsame =>
      have hab : a.source.key = b.source.key := Path.same_iff_key.mp hsame
      exact List.pairwise_cons.mpr
        ⟨fun x hx => Path.precedes_iff.mpr (hab ▸ hkey x hx), hrest⟩
    · next hsame =>
      split
      · next hle =>
        have hab : a.source.Precedes b.source := ⟨hle, Bool.eq_false_iff.mpr hsame⟩
        refine List.pairwise_cons.mpr ⟨List.forall_mem_cons.mpr ⟨hab, fun x hx => ?_⟩, h⟩
        exact Path.precedes_iff.mpr ((Path.precedes_iff.mp hab).trans (hkey x hx))
      · next hle =>
        have hba : b.source.Precedes a.source := by
          rw [Path.precedes_iff, ← not_le, ← Path.le_iff]
          exact hle
        refine List.pairwise_cons.mpr ⟨fun x hx => ?_, ih hrest⟩
        rcases Artifact.mem_insert hx with rfl | hx
        · exact hba
        · exact hb x hx

theorem Artifact.find?_insert (a : Artifact) (artifacts : List Artifact) (p : Path) :
    (a.insert artifacts).find? (·.source.same p) =
      if a.source.same p then some a else artifacts.find? (·.source.same p) := by
  induction artifacts with
  | nil => simp only [insert, List.find?_singleton, List.find?_nil]
  | cons b rest ih =>
    unfold insert
    by_cases hab : a.source.same b.source = true
    · have hsame : b.source.same p = a.source.same p := by
        rw [Path.same, Path.same, Path.same_iff.mp hab]
      rw [if_pos hab, List.find?_cons, List.find?_cons, hsame]
      cases a.source.same p <;> rfl
    · rw [if_neg hab]
      split
      · rw [List.find?_cons]
        cases a.source.same p <;> rfl
      · rw [List.find?_cons, List.find?_cons, ih]
        cases hbp : b.source.same p with
        | false => rfl
        | true =>
          have hap : ¬ a.source.same p = true := fun hap => hab <|
            Path.same_iff.mpr ((Path.same_iff.mp hap).trans (Path.same_iff.mp hbp).symm)
          exact (if_neg hap).symm

theorem CompileResult.artifact?_insert (r : CompileResult) (a : Artifact) (p : Path) :
    (r.insert a).artifact? p = if a.source.same p then some a else r.artifact? p :=
  a.find?_insert r.artifacts p

/-- A result into which artifacts were put one after the other. -/
def CompileResult.ofArtifacts (artifacts : List Artifact) (diagnostics : List Diagnostic) :
    CompileResult :=
  (artifacts.foldl CompileResult.insert .empty).report diagnostics

theorem CompileResult.ofArtifacts_sorted (artifacts : List Artifact)
    (diagnostics : List Diagnostic) :
    Artifact.Sorted (ofArtifacts artifacts diagnostics).artifacts := by
  have hfold : ∀ r : CompileResult, Artifact.Sorted r.artifacts →
      Artifact.Sorted (artifacts.foldl CompileResult.insert r).artifacts := by
    induction artifacts with
    | nil => exact fun _ h => h
    | cons a artifacts ih => exact fun r h => ih _ (h.insert a)
  exact hfold .empty .nil

theorem CompileResult.ofArtifacts_diagnostics (artifacts : List Artifact)
    (diagnostics : List Diagnostic) :
    (ofArtifacts artifacts diagnostics).diagnostics = diagnostics := by
  have hfold : ∀ r : CompileResult,
      (artifacts.foldl CompileResult.insert r).diagnostics = r.diagnostics := by
    induction artifacts with
    | nil => exact fun _ => rfl
    | cons a artifacts ih => exact fun r => ih _
  rw [ofArtifacts, report, hfold]
  rfl

/-! ## Assemblies -/

namespace Assembly

theorem cons_filter_perm {rest : List Artifact} (h : Artifact.Sorted rest) {p : Path}
    {a : Artifact} (ha : rest.find? (·.source.same p) = some a) :
    (a :: rest.filter (!·.source.same p)).Perm rest := by
  obtain ⟨hp, before, after, rfl, hbefore⟩ := List.find?_eq_some_iff_append.mp ha
  have hkept : ∀ x ∈ before ++ after, (!x.source.same p) = true := by
    intro x hx
    rcases List.mem_append.mp hx with hx | hx
    · exact hbefore x hx
    · have hax := (List.pairwise_cons.mp (List.pairwise_append.mp h).2.1).1 x hx
      rw [Bool.not_eq_true', ← hax.2, Bool.eq_iff_iff, Path.same_iff, Path.same_iff,
        Path.same_iff.mp hp, eq_comm]
  rw [List.filter_append, List.filter_cons_of_neg (by simp [hp]), ← List.filter_append,
    List.filter_eq_self.mpr hkept]
  exact List.perm_middle.symm

theorem pick_append_perm (paths : List Path) {rest : List Artifact}
    (h : Artifact.Sorted rest) : ((pick paths rest).1 ++ (pick paths rest).2).Perm rest := by
  induction paths generalizing rest with
  | nil => exact .refl _
  | cons p more ih =>
    unfold pick
    cases hfind : rest.find? (·.source.same p) with
    | none => exact ih h
    | some a =>
      have hrest : Artifact.Sorted (rest.filter (!·.source.same p)) :=
        h.sublist List.filter_sublist
      exact ((ih hrest).cons a).trans (cons_filter_perm h hfind)

/-- The artifacts of a result in an order of files: those of the files first, in their order, and
then all others in the order of their paths. -/
structure Arranges (a : Assembly) (files : List SourceFile) (result : CompileResult) : Prop where
  perm : a.artifacts.Perm result.artifacts
  split : a.artifacts = files.filterMap (fun f => result.artifact? f.path) ++
    result.artifacts.filter fun x => !files.any fun f => x.source.same f.path
  sorted : Artifact.Sorted
    (result.artifacts.filter fun x => !files.any fun f => x.source.same f.path)

theorem arranges {sources : Cache} {config : BuildConfiguration} {result : CompileResult}
    (h : Artifact.Sorted result.artifacts) {files : List SourceFile}
    (hfiles : (orderOf sources config).files.filterMap sources.file? = files)
    (hpaths : ((files.map SourceFile.path).map Path.components).Nodup) :
    (new sources config result).Arranges files result := by
  have hdistinct : (files.map SourceFile.path).Pairwise fun p q => ¬ p.same q :=
    (List.pairwise_map.mp hpaths).imp fun hne hsame => hne (Path.same_iff.mp hsame)
  have hartifacts := new_artifacts sources config result
  rw [hfiles] at hartifacts
  refine ⟨?_, ?_, h.sublist List.filter_sublist⟩
  · rw [hartifacts]
    exact pick_append_perm _ h
  · rw [hartifacts, pick_eq hdistinct, List.filterMap_map]
    simp only [List.any_map]
    rfl

end Assembly

namespace Cache

/-- In a reachable cache the files of the cycle are ordered without loss, and an assembly follows
them. -/
theorem orderOf_arranges (steps : List CacheStep) (config : BuildConfiguration)
    {result : CompileResult} (h : Artifact.Sorted result.artifacts) :
    let sources := runSteps steps
    let files := (Assembly.orderOf sources config).files.filterMap sources.file?
    files.Perm sources.files ∧ (Assembly.new sources config result).Arranges files result := by
  intro sources files
  have hsound : sources.WellFormed := (runSteps_sound steps).toWellFormed
  have hperm : files.Perm sources.files := by
    unfold files Assembly.orderOf
    split
    · exact hsound.filterMap_file?_perm
        (ReferenceGraph.order_respects hsound.nodup_files_id hsound.nodup_files_path _).every
    · rw [hsound.filterMap_file?]
  have hpaths : ((files.map SourceFile.path).map Path.components).Nodup :=
    ((hperm.map _).map _).nodup_iff.mpr (hsound.nodup_components (runSteps_normal steps))
  exact ⟨hperm, Assembly.arranges h rfl hpaths⟩

/-- For any reachable cache, any configuration and any artifacts put into a result, an assembly has
exactly the artifacts of the result. Those of the files of the cycle come first, in the order of
the graph if the output is a bundle or sorted and in the order of the cycle if not. The
diagnostics of the result are followed by one error for each reference cycle of the graph, or by
none if the order of the cycle is kept. -/
theorem assembly_arranges (steps : List CacheStep) (config : BuildConfiguration)
    (artifacts : List Artifact) (diagnostics : List Diagnostic) :
    let sources := runSteps steps
    let graph := ReferenceGraph.build sources
    let result := CompileResult.ofArtifacts artifacts diagnostics
    let assembly := Assembly.new sources config result
    let sorted := config.singleOutput || config.settings.sortOutput
    let files := if sorted
      then (graph.order config.settings.ordering).files.filterMap sources.file?
      else sources.files
    let cycles := if sorted then graph.cycles else []
    files.Perm sources.files ∧ assembly.Arranges files result ∧ assembly.cycles = cycles ∧
      assembly.diagnostics = diagnostics ++ cycles.map ReferenceCycle.diagnostic ∧
      ∀ cycle : ReferenceCycle, cycle.diagnostic.isError = true ∧
        cycle.diagnostic.code.text = "O001".toList := by
  intro sources graph result assembly sorted files cycles
  have hfiles : (Assembly.orderOf sources config).files.filterMap sources.file? = files := by
    unfold Assembly.orderOf files
    split
    · rfl
    · exact (runSteps_sound steps).toWellFormed.filterMap_file?
  have hcycles : (Assembly.orderOf sources config).cycles = cycles := by
    unfold Assembly.orderOf cycles
    split
    · exact ReferenceGraph.order_cycles graph _
    · rfl
  obtain ⟨hperm, harranges⟩ := orderOf_arranges steps config
    (CompileResult.ofArtifacts_sorted artifacts diagnostics)
  rw [hfiles] at hperm harranges
  refine ⟨hperm, harranges, hcycles, ?_, fun cycle => ⟨rfl, cycle.diagnostic_code⟩⟩
  show result.diagnostics ++ (Assembly.orderOf sources config).cycles.map _ = _
  rw [hcycles, CompileResult.ofArtifacts_diagnostics]

end Cache

end IncrementalBuild
