import IncrementalBuild.Output.Assembly
import IncrementalBuild.Proofs.FileReferences
import IncrementalBuild.Proofs.ReachableCaches
import IncrementalBuild.Proofs.Visits
/-!
# The order of emission

Every file of a cycle is emitted once. If no file leads back to itself, each comes after the files
it refers to, and so do the artifacts of a bundle or of sorted output. If some file does, that is
reported, and the files keep the order of the cycle.
-/
namespace IncrementalBuild

/-! ## Lists -/

/-- If no element of a list has a step to a later one, the other end of a step comes first. -/
theorem pair_sublist {α : Type} {step : α → α → Prop} {l : List α}
    (hl : l.Pairwise fun a b => ¬ step a b) {a b : α} (ha : a ∈ l) (hb : b ∈ l) (hne : a ≠ b)
    (hab : step a b) : [b, a].Sublist l := by
  obtain ⟨before, after, rfl⟩ := List.append_of_mem ha
  rcases List.mem_append.mp hb with hb | hb
  · exact (List.singleton_sublist.mpr hb).append (List.singleton_sublist.mpr List.mem_cons_self)
  · rcases List.mem_cons.mp hb with rfl | hb
    · exact absurd rfl hne
    · exact absurd hab ((List.pairwise_cons.mp (List.pairwise_append.mp hl).2.1).1 b hb)

theorem filter_of_sublist {α : Type} {l s : List α} (hs : s.Sublist l) (hl : l.Nodup)
    {p : α → Bool} (hp : ∀ a ∈ l, p a ↔ a ∈ s) : l.filter p = s := by
  have hself : s.filter p = s :=
    List.filter_eq_self.mpr fun a ha => (hp a (hs.subset ha)).mpr ha
  have hsub : s.Sublist (l.filter p) := hself ▸ hs.filter p
  refine (hsub.eq_of_length_le ?_).symm
  apply (hl.filter p).length_le_of_subset
  intro a ha
  obtain ⟨hal, hpa⟩ := List.mem_filter.mp ha
  exact (hp a hal).mp hpa

/-! ## The order of files -/

/-- What an order of emission owes to the references between files. -/
structure OutputOrder.Respects (o : OutputOrder) (files : List SourceFile) : Prop where
  every : o.files.Perm (files.map SourceFile.id)
  once : o.files.Nodup
  acyclic : ¬ Looped files →
    o.cycles = [] ∧ ∀ a b, Refers files a b → [b.id, a.id].Sublist o.files
  cyclic : Looped files → o.cycles ≠ [] ∧ o.files = files.map SourceFile.id

namespace ReferenceGraph

theorem order_of_acyclic {g : ReferenceGraph} (h : g.cycles = []) (policy : OrderingPolicy) :
    g.order policy = ⟨g.idsOf (g.referencesFirst (g.roots policy)), []⟩ := by
  unfold order
  rw [h]

theorem order_of_cyclic {g : ReferenceGraph} (h : g.cycles ≠ []) (policy : OrderingPolicy) :
    g.order policy = ⟨g.nodes.map Node.id, g.cycles⟩ := by
  unfold order
  split
  · next hnil => exact absurd hnil h
  · rfl

theorem idsOf_range (g : ReferenceGraph) : g.idsOf (List.range g.size) = g.nodes.map Node.id := by
  have hsome : ∀ i ∈ List.range g.size,
      g.nodes[i]?.map Node.id = (some ∘ fun i => (g.nodes.map Node.id).getD i 0) i := by
    intro i hi
    have hlt : i < g.nodes.length := List.mem_range.mp hi
    simp [List.getD_eq_getElem?_getD, List.getElem?_eq_getElem hlt]
  rw [idsOf, List.filterMap_congr hsome, List.filterMap_eq_map]
  apply List.ext_getElem
  · simp [size]
  · intro i _ hi
    simp only [List.getElem_map, List.getElem_range, List.getD_eq_getElem _ _ hi]

theorem idsOf_pair {files : List SourceFile} {a b : SourceFile} (ha : a ∈ files)
    (hb : b ∈ files) :
    (ofFiles files).idsOf [files.idxOf b, files.idxOf a] = [b.id, a.id] := by
  simp [idsOf, node_ofFiles (List.getElem?_idxOf ha), node_ofFiles (List.getElem?_idxOf hb)]

theorem order_respects {files : List SourceFile} (hids : (files.map SourceFile.id).Nodup)
    (hpaths : (files.map SourceFile.path).Nodup) (policy : OrderingPolicy) :
    ((ofFiles files).order policy).Respects files := by
  have hnil := cycles_eq_nil_iff hpaths
  by_cases hloop : Looped files
  · have hcycles : (ofFiles files).cycles ≠ [] := fun h => hnil.mp h hloop
    rw [order_of_cyclic hcycles, ofFiles_id]
    exact ⟨.refl _, hids, fun h => absurd hloop h, fun _ => ⟨hcycles, rfl⟩⟩
  · rw [order_of_acyclic (hnil.mpr hloop)]
    have hbounded : ∀ i j, (ofFiles files).Edge i j → j < (ofFiles files).size :=
      fun _ _ h => size_ofFiles files ▸ (edge_bounded hpaths h).2
    have hacyclic : ∀ i, ¬ Relation.TransGen (ofFiles files).Edge i i :=
      fun i h => hloop ((ofFiles_carries hpaths).exists_loop_iff.mp ⟨i, h⟩)
    obtain ⟨hperm, hordered⟩ := referencesFirst_ordered hbounded hacyclic (roots_perm policy)
    have hevery : ((ofFiles files).idsOf ((ofFiles files).referencesFirst
        ((ofFiles files).roots policy))).Perm (files.map SourceFile.id) := by
      rw [← ofFiles_id, ← idsOf_range]
      exact hperm.filterMap _
    refine ⟨hevery, hevery.nodup_iff.mpr hids, fun _ => ⟨rfl, fun a b hab => ?_⟩,
      fun h => absurd h hloop⟩
    have hmem : ∀ x ∈ files, files.idxOf x ∈ (ofFiles files).referencesFirst
        ((ofFiles files).roots policy) := by
      intro x hx
      rw [hperm.mem_iff, ← idxOf_files hpaths]
      exact List.mem_map_of_mem hx
    have hne : files.idxOf a ≠ files.idxOf b :=
      fun h => hab.2.2.1 ((List.idxOf_inj hab.1).mp h)
    have hpair := pair_sublist hordered (hmem a hab.1) (hmem b hab.2.1) hne
      ((ofFiles_carries hpaths).push a b hab).2.2
    exact idsOf_pair hab.1 hab.2.1 ▸ hpair.filterMap _

end ReferenceGraph

/-! ## The order of artifacts -/

namespace Assembly

theorem find?_filter_same {p q : Path} (hpq : ¬ p.same q) (rest : List Artifact) :
    (rest.filter (!·.source.same p)).find? (·.source.same q) =
      rest.find? (·.source.same q) := by
  rw [Path.same_iff] at hpq
  rw [List.find?_filter]
  congr 1
  funext x
  cases hxq : x.source.same q with
  | false => simp
  | true =>
    have hxp : x.source.same p = false := by
      rw [← Bool.not_eq_true, Path.same_iff, Path.same_iff.mp hxq]
      exact fun h => hpq h.symm
    simp [hxp]

/-- For different sources, what is picked is found among all artifacts, and what is left is of no
source. -/
theorem pick_eq {paths : List Path} (hpaths : paths.Pairwise fun p q => ¬ p.same q)
    (rest : List Artifact) : pick paths rest =
      (paths.filterMap fun p => rest.find? (·.source.same p),
        rest.filter fun x => !paths.any x.source.same) := by
  induction paths generalizing rest with
  | nil => simp [pick]
  | cons p more ih =>
    obtain ⟨hp, hmore⟩ := List.pairwise_cons.mp hpaths
    unfold pick
    rw [List.filterMap_cons]
    cases hfind : rest.find? (·.source.same p) with
    | none =>
      have hnone : ∀ x ∈ rest, (!(p :: more).any x.source.same) = !more.any x.source.same := by
        intro x hx
        have hx : x.source.same p = false := by simpa using List.find?_eq_none.mp hfind x hx
        rw [List.any_cons, hx, Bool.false_or]
      rw [List.filter_congr hnone]
      exact ih hmore rest
    | some a =>
      have hothers : ∀ q ∈ more, (rest.filter (!·.source.same p)).find? (·.source.same q) =
          rest.find? (·.source.same q) := fun q hq => find?_filter_same (hp q hq) rest
      simp only [ih hmore, List.filterMap_congr hothers, List.filter_filter, List.any_cons,
        Bool.not_or, Bool.and_comm]

theorem new_artifacts (sources : Cache) (config : BuildConfiguration) (result : CompileResult) :
    let paths := ((orderOf sources config).files.filterMap sources.file?).map SourceFile.path
    (new sources config result).artifacts =
      (pick paths result.artifacts).1 ++ (pick paths result.artifacts).2 := rfl

section
variable {paths : List Path} (hsame : ∀ p ∈ paths, ∀ q ∈ paths, p.same q → p = q) {p q : Path}
include hsame

/-- An artifact that is found for another source than two given ones is of neither. -/
theorem filter_find? (hp : p ∈ paths) (hq : q ∈ paths) (rest : List Artifact) {r : Path}
    (hr : r ∈ paths) :
    (rest.find? (·.source.same r)).filter (fun z => z.source.same p || z.source.same q) =
      if decide (r ∈ [q, p]) then rest.find? (·.source.same r) else none := by
  cases hz : rest.find? (·.source.same r) with
  | none => simp
  | some z =>
    have hzr : z.source.same r := by simpa using List.find?_some hz
    have hiff : ∀ s ∈ paths, z.source.same s = true ↔ r = s := by
      intro s hs
      constructor
      · intro hzs
        refine hsame r hr s hs ?_
        rw [Path.same_iff, ← Path.same_iff.mp hzr, Path.same_iff.mp hzs]
      · rintro rfl
        exact hzr
    simp only [Option.filter_some, Bool.or_eq_true, hiff p hp, hiff q hq, List.mem_pair,
      decide_eq_true_eq, or_comm]

/-- The artifacts of two sources stand in the order of the sources, once each. -/
theorem filter_pick (hnodup : paths.Nodup) (hpair : [q, p].Sublist paths) {rest : List Artifact}
    {x y : Artifact} (hx : rest.find? (·.source.same p) = some x)
    (hy : rest.find? (·.source.same q) = some y) :
    ((pick paths rest).1 ++ (pick paths rest).2).filter
      (fun z => z.source.same p || z.source.same q) = [y, x] := by
  have hq : q ∈ paths := hpair.subset (by simp)
  have hp : p ∈ paths := hpair.subset (by simp)
  have hpaths : paths.Pairwise fun p q => ¬ p.same q :=
    hnodup.imp_of_mem fun hp hq hne h => hne (hsame _ hp _ hq h)
  have hleft : (rest.filter fun z => !paths.any z.source.same).filter
      (fun z => z.source.same p || z.source.same q) = [] := by
    rw [List.filter_filter, List.filter_eq_nil_iff]
    intro z _ hz
    simp only [Bool.and_eq_true, Bool.or_eq_true, Bool.not_eq_true', List.any_eq_false] at hz
    exact hz.1.elim (hz.2 p hp) (hz.2 q hq)
  have hfilter : paths.filter (· ∈ [q, p]) = [q, p] :=
    filter_of_sublist hpair hnodup fun _ _ => decide_eq_true_iff
  rw [pick_eq hpaths, List.filter_append, hleft, List.append_nil, List.filter_filterMap,
    List.filterMap_congr fun r hr => filter_find? hsame hp hq rest hr, ← List.filterMap_filter,
    hfilter]
  simp [hx, hy]

end

end Assembly

namespace Cache

/-- Looking up the ids of the files of a cycle gives the files. -/
theorem WellFormed.filterMap_file? {c : Cache} (h : c.WellFormed) :
    (c.files.map SourceFile.id).filterMap c.file? = c.files := by
  rw [List.filterMap_map]
  calc c.files.filterMap (c.file? ∘ SourceFile.id)
    _ = c.files.filterMap some := List.filterMap_congr fun f hf => h.file?_of_mem_files hf
    _ = c.files := List.filterMap_some

/-- Looking up the ids of the files of a cycle in another order gives the files in that order. -/
theorem WellFormed.filterMap_file?_perm {c : Cache} (h : c.WellFormed) {ids : List FileId}
    (hids : ids.Perm (c.files.map SourceFile.id)) : (ids.filterMap c.file?).Perm c.files :=
  h.filterMap_file? ▸ hids.filterMap c.file?

/-- The order of emission of every reachable cache respects the references between its files. In
a bundle and in sorted output, the artifacts of a file and of one it refers to are there once each,
the one it refers to first, unless some file leads back to itself. -/
theorem emission_respects_references (steps : List CacheStep) (policy : OrderingPolicy) :
    ((ReferenceGraph.build (runSteps steps)).order policy).Respects (runSteps steps).files ∧
    ∀ (config : BuildConfiguration) (result : CompileResult),
      (config.singleOutput || config.settings.sortOutput) = true →
      ¬ Looped (runSteps steps).files →
      ∀ a b x y, Refers (runSteps steps).files a b →
        result.artifact? a.path = some x → result.artifact? b.path = some y →
        ((Assembly.new (runSteps steps) config result).artifacts.filter fun z =>
          z.source.same a.path || z.source.same b.path) = [y, x] := by
  have h := (runSteps_sound steps).toWellFormed
  have hrespects := ReferenceGraph.order_respects h.nodup_files_id h.nodup_files_path
  refine ⟨hrespects policy, ?_⟩
  intro config result hmode hloop a b x y hab hx hy
  have horder : Assembly.orderOf (runSteps steps) config =
      (ReferenceGraph.build (runSteps steps)).order config.settings.ordering := if_pos hmode
  have hr : ((ReferenceGraph.build (runSteps steps)).order config.settings.ordering).Respects
      (runSteps steps).files := hrespects config.settings.ordering
  rw [Assembly.new_artifacts, horder]
  have hfiles := h.filterMap_file?_perm hr.every
  refine Assembly.filter_pick ?_ ?_ ?_ hx hy
  · intro p hp q hq hsame
    obtain ⟨f, hf, rfl⟩ := List.mem_map.mp hp
    obtain ⟨f', hf', rfl⟩ := List.mem_map.mp hq
    have hnormal := fun f hf => h.files_normal (runSteps_normal steps) (f := f) hf
    exact (hnormal f (hfiles.mem_iff.mp hf)).eq_of_same (hnormal f' (hfiles.mem_iff.mp hf')) hsame
  · exact (hfiles.map _).nodup_iff.mpr h.nodup_files_path
  · have hids := (hr.acyclic hloop).2 a b hab
    have hpair := (hids.filterMap (runSteps steps).file?).map SourceFile.path
    simpa [h.file?_of_mem_files hab.1, h.file?_of_mem_files hab.2.1] using hpair

end Cache

end IncrementalBuild
