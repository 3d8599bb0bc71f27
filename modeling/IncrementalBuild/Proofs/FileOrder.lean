import IncrementalBuild.Proofs.EmissionOrder
import IncrementalBuild.Proofs.PathOrder
/-!
# Files in another order

The graph of a cycle numbers its files in the order they were staged. Staged in another order the
same files get other numbers, and everything that is read off the graph follows: a visit goes the
same way under the new numbers. Where files are visited in the order of their paths, the numbers
leave no trace in the result.
-/
namespace IncrementalBuild

/-! ## Visits under other numbers -/

namespace Visit

/-- A visit under other numbers. -/
def renumber (π : Nat → Nat) (v : Visit) : Visit :=
  ⟨v.seen.map π, v.stack.map fun (i, rest) => (π i, rest.map π), v.done.map π⟩

section
variable {π : Nat → Nat} (hπ : Function.Injective π) {targets targets' : Nat → List Nat}
  (htargets : ∀ i, targets' (π i) = (targets i).map π)
include hπ htargets

theorem step_renumber (v : Visit) :
    (v.renumber π).step targets' = (v.step targets).renumber π := by
  obtain ⟨hstack, heq⟩ | ⟨i, outer, hstack, heq⟩ | ⟨i, j, rest, outer, hstack, hj, heq⟩ |
    ⟨i, j, rest, outer, hstack, hj, heq⟩ := step_cases targets v
  · rw [heq]
    simp [step, renumber, hstack]
  · rw [heq]
    simp [step, renumber, hstack]
  · have hj : π j ∈ v.seen.map π := (List.mem_map_of_injective hπ).mpr hj
    rw [heq]
    simp only [step, renumber, hstack, List.map_cons, if_pos hj]
  · have hj : π j ∉ v.seen.map π := mt (List.mem_map_of_injective hπ).mp hj
    rw [heq]
    simp only [step, renumber, enter, hstack, List.map_cons, List.singleton_append, if_neg hj,
      htargets]

theorem run_renumber (bound : Nat) (v : Visit) :
    run targets' bound (v.renumber π) = (run targets bound v).renumber π := by
  induction bound generalizing v with
  | zero => rfl
  | succ bound ih =>
    have hempty : (v.renumber π).stack.isEmpty = v.stack.isEmpty := List.isEmpty_map
    unfold run
    rw [hempty, step_renumber hπ htargets, ih]
    split <;> rfl

theorem root_renumber (bound : Nat) (v : Visit) (i : Nat) :
    root targets' bound (v.renumber π) (π i) = (root targets bound v i).renumber π := by
  have hseen : π i ∈ (v.renumber π).seen ↔ i ∈ v.seen := List.mem_map_of_injective hπ
  unfold root
  simp only [hseen]
  split
  · rfl
  · rw [← run_renumber hπ htargets]
    simp only [renumber, List.map_cons, List.map_nil, htargets]

theorem foldl_root_renumber (bound : Nat) (roots : List Nat) (v : Visit) :
    (roots.map π).foldl (root targets' bound) (v.renumber π) =
      (roots.foldl (root targets bound) v).renumber π := by
  induction roots generalizing v with
  | nil => rfl
  | cons i roots ih =>
    rw [List.map_cons, List.foldl_cons, List.foldl_cons, root_renumber hπ htargets, ih]

end

end Visit

/-! ## The same files -/

/-- Two lists of files with the same paths, each path with the same markers in both. -/
structure Reordered (files files' : List SourceFile) : Prop where
  once : (files.map SourceFile.path).Nodup
  paths : (files'.map SourceFile.path).Perm (files.map SourceFile.path)
  markers : ∀ f ∈ files, ∀ f' ∈ files', f'.path = f.path →
    f'.references.map Reference.path = f.references.map Reference.path

theorem map_path_firstMarkers {references references' : List Reference}
    (h : references'.map Reference.path = references.map Reference.path) :
    (firstMarkers references').map Reference.path =
      (firstMarkers references).map Reference.path := by
  induction references generalizing references' with
  | nil => rw [List.map_eq_nil_iff.mp h]
  | cons r rest ih =>
    obtain ⟨r', rest', rfl, hr, hrest⟩ := List.map_eq_cons_iff.mp h
    have hfilter : ∀ (q : Path) (l : List Reference),
        (l.filter (·.path ≠ q)).map Reference.path = (l.map Reference.path).filter (· ≠ q) :=
      fun q l => by
        rw [List.filter_map]
        rfl
    rw [firstMarkers, firstMarkers, List.map_cons, List.map_cons, hfilter, hfilter, ih hrest, hr]

theorem idxOf?_iff {paths : List Path} (h : paths.Nodup) {p : Path} {i : Nat} :
    paths.idxOf? p = some i ↔ paths[i]? = some p := by
  rw [List.idxOf?_eq_some_iff, List.getElem?_eq_some_iff]
  constructor
  · rintro ⟨hi, hp, _⟩
    exact ⟨hi, hp⟩
  · rintro ⟨hi, hp⟩
    refine ⟨hi, hp, fun j hj hpj => ?_⟩
    exact Nat.ne_of_lt hj (h.getElem_inj_iff.mp (hpj.trans hp.symm))

/-- The number of a path in another list of paths. -/
def renumber (paths paths' : List Path) (i : Nat) : Nat := (paths[i]?.map paths'.idxOf).getD i

section
variable {paths paths' : List Path} (honce : paths.Nodup) (hperm : paths'.Perm paths)

include hperm in
theorem getElem?_renumber (i : Nat) : paths'[renumber paths paths' i]? = paths[i]? := by
  unfold renumber
  cases hp : paths[i]? with
  | none =>
    have hi : paths'.length ≤ i := hperm.length_eq ▸ List.getElem?_eq_none_iff.mp hp
    exact List.getElem?_eq_none_iff.mpr hi
  | some p => exact List.getElem?_idxOf (hperm.mem_iff.mpr (List.mem_of_getElem? hp))

include honce hperm

theorem renumber_injective : Function.Injective (renumber paths paths') := by
  intro i j hij
  have heq : paths[i]? = paths[j]? := by
    rw [← getElem?_renumber hperm i, ← getElem?_renumber hperm j, hij]
  by_cases hi : i < paths.length
  · exact (List.getElem?_inj hi honce).mp heq
  · have hi := List.getElem?_eq_none_iff.mpr (Nat.le_of_not_lt hi)
    simpa [renumber, hi, heq.symm.trans hi] using hij

theorem idxOf?_renumber (p : Path) :
    paths'.idxOf? p = (paths.idxOf? p).map (renumber paths paths') := by
  by_cases hp : p ∈ paths
  · obtain ⟨i, hi⟩ := List.mem_iff_getElem?.mp hp
    have hi' := (getElem?_renumber hperm i).trans hi
    rw [(idxOf?_iff honce).mpr hi, (idxOf?_iff (hperm.nodup_iff.mpr honce)).mpr hi',
      Option.map_some]
  · rw [List.idxOf?_eq_none_iff.mpr hp, List.idxOf?_eq_none_iff.mpr (mt hperm.mem_iff.mp hp),
      Option.map_none]

theorem range_renumber :
    ((List.range paths.length).map (renumber paths paths')).Perm (List.range paths.length) := by
  have hnodup := (List.nodup_range (n := paths.length)).map (renumber_injective honce hperm)
  refine (List.subperm_of_subset hnodup fun j hj => ?_).perm_of_length_le (by simp)
  obtain ⟨i, hi, rfl⟩ := List.mem_map.mp hj
  have hi := List.getElem?_eq_getElem (List.mem_range.mp hi)
  obtain ⟨hj, _⟩ := List.getElem?_eq_some_iff.mp ((getElem?_renumber hperm i).trans hi)
  exact List.mem_range.mpr (hperm.length_eq ▸ hj)

end

namespace ReferenceGraph

/-! ## The graph of the same files -/

/-- The node that a marker for a path leads to. -/
def target? (paths : List Path) (self : Nat) (p : Path) : Option Nat :=
  (paths.idxOf? p).filter (· ≠ self)

theorem targets_of_file {files : List SourceFile} {i : Nat} {a : SourceFile}
    (ha : files[i]? = some a) : (ofFiles files).targets i =
      ((firstMarkers a.references).map Reference.path).filterMap
        (target? (files.map SourceFile.path) i) := by
  rw [targets, links_of_file ha, List.map_filterMap, List.filterMap_map]
  apply List.filterMap_congr
  intro r _
  show Option.map Link.target (link? _ i r) = target? _ i r.path
  unfold link? target?
  cases (files.map SourceFile.path).idxOf? r.path with
  | none => rfl
  | some j => by_cases hj : j = i <;> simp [hj, Option.filter]

theorem targets_of_none {files : List SourceFile} {i : Nat} (hi : files[i]? = none) :
    (ofFiles files).targets i = [] := by
  have hnode : (ofFiles files).nodes[i]? = none := by
    rw [List.getElem?_eq_none_iff] at hi ⊢
    exact (size_ofFiles files).trans_le hi
  rw [targets, links, hnode]
  rfl

theorem path_ofFiles (files : List SourceFile) (i : Nat) :
    (ofFiles files).nodes[i]?.map Node.path = (files.map SourceFile.path)[i]? := by
  have hpaths : (ofFiles files).nodes.map Node.path = files.map SourceFile.path := by
    rw [ofFiles, List.map_map, ← List.zipIdx_map_fst 0 files, List.map_map, List.zipIdx_map_fst]
    rfl
  rw [← List.getElem?_map, hpaths]

/-- The path of a node. -/
def pathAt (g : ReferenceGraph) (i : Nat) : Path := (g.nodes[i]?.map Node.path).getD ⟨[]⟩

theorem roots_sorted (g : ReferenceGraph) :
    (g.roots .path).Pairwise fun i j => (g.pathAt i).le (g.pathAt j) = true := by
  have htrans : ∀ i j k : Nat, (g.pathAt i).le (g.pathAt j) = true →
      (g.pathAt j).le (g.pathAt k) = true → (g.pathAt i).le (g.pathAt k) = true :=
    fun _ _ _ => Path.le_trans'
  have htotal : ∀ i j : Nat,
      ((g.pathAt i).le (g.pathAt j) || (g.pathAt j).le (g.pathAt i)) = true :=
    fun _ _ => Path.le_total' ..
  exact List.pairwise_mergeSort htrans htotal _

section
variable {files files' : List SourceFile} (h : Reordered files files')
include h

/-- Under the new numbers, a file refers to the same files in the same order. -/
theorem targets_renumber (i : Nat) :
    let π := renumber (files.map SourceFile.path) (files'.map SourceFile.path)
    (ofFiles files').targets (π i) = ((ofFiles files).targets i).map π := by
  intro π
  have hinjective : Function.Injective π := renumber_injective h.once h.paths
  have hpath : (files'[π i]?).map SourceFile.path = (files[i]?).map SourceFile.path := by
    rw [← List.getElem?_map, ← List.getElem?_map]
    exact getElem?_renumber h.paths i
  cases ha : files[i]? with
  | none =>
    rw [ha, Option.map_none, Option.map_eq_none_iff] at hpath
    rw [targets_of_none ha, targets_of_none hpath, List.map_nil]
  | some a =>
    rw [ha, Option.map_some, Option.map_eq_some_iff] at hpath
    obtain ⟨a', ha', hpath⟩ := hpath
    have hmarkers := h.markers a (List.mem_of_getElem? ha) a' (List.mem_of_getElem? ha') hpath
    rw [targets_of_file ha, targets_of_file ha', map_path_firstMarkers hmarkers,
      List.map_filterMap]
    apply List.filterMap_congr
    intro p _
    unfold target?
    rw [idxOf?_renumber h.once h.paths]
    cases (files.map SourceFile.path).idxOf? p with
    | none => rfl
    | some j =>
      by_cases hj : j = i
      · simp [hj, Option.filter, π]
      · have hj' : π j ≠ π i := fun heq => hj (hinjective heq)
        simpa [hj, Option.filter, π] using hj'

theorem size_reordered : (ofFiles files').size = (ofFiles files).size := by
  rw [size_ofFiles, size_ofFiles]
  simpa using h.paths.length_eq

theorem range_reordered :
    ((List.range (ofFiles files).size).map
      (renumber (files.map SourceFile.path) (files'.map SourceFile.path))).Perm
      (List.range (ofFiles files).size) := by
  have hrange := range_renumber h.once h.paths
  rwa [List.length_map, ← size_ofFiles] at hrange

theorem effort_reordered : (ofFiles files').effort = (ofFiles files).effort := by
  have hsum : ∀ g : ReferenceGraph,
      g.effort = ((List.range g.size).map fun i => (g.targets i).length + 1).sum := fun g =>
    effort_eq
  rw [hsum, hsum, size_reordered h, ← ((range_reordered h).map _).sum_eq, List.map_map]
  congr 1
  apply List.map_congr_left
  intro i _
  simp only [Function.comp_apply, targets_renumber h, List.length_map]

/-- The paths of a cycle have one order, so the files are visited in one order. -/
theorem roots_renumber (hsame : ∀ p ∈ files.map SourceFile.path, ∀ q ∈ files.map SourceFile.path,
    p.same q → p = q) :
    (ofFiles files').roots .path = ((ofFiles files).roots .path).map
      (renumber (files.map SourceFile.path) (files'.map SourceFile.path)) := by
  have hpath : ∀ i, (ofFiles files').pathAt (renumber (files.map SourceFile.path)
      (files'.map SourceFile.path) i) = (ofFiles files).pathAt i := by
    intro i
    unfold pathAt
    rw [path_ofFiles, path_ofFiles, getElem?_renumber h.paths]
  have hperm := ((roots_perm (g := ofFiles files) .path).map _).trans (range_reordered h)
  rw [← size_reordered h] at hperm
  refine List.Perm.eq_of_pairwise (fun i j hi hj hij hji => ?_)
    (ofFiles files').roots_sorted ?_
    ((roots_perm .path).trans hperm.symm)
  · -- two nodes that come before each other have the same path, and so are one
    have hsome : ∀ k ∈ List.range (ofFiles files').size, ∃ p ∈ files.map SourceFile.path,
        (files'.map SourceFile.path)[k]? = some p := by
      intro k hk
      rw [List.mem_range, size_ofFiles] at hk
      have hk := List.getElem?_eq_getElem ((List.length_map SourceFile.path).symm ▸ hk)
      exact ⟨_, h.paths.mem_iff.mp (List.mem_of_getElem? hk), hk⟩
    obtain ⟨p, hp, hip⟩ := hsome i ((roots_perm .path).mem_iff.mp hi)
    obtain ⟨q, hq, hjq⟩ := hsome j (hperm.mem_iff.mp hj)
    simp only [pathAt, path_ofFiles, hip, hjq, Option.getD_some] at hij hji
    obtain rfl := hsame p hp q hq (Path.same_of_le hij hji)
    obtain ⟨hlt, _⟩ := List.getElem?_eq_some_iff.mp hip
    exact (List.getElem?_inj hlt (h.paths.nodup_iff.mpr h.once)).mp (hip.trans hjq.symm)
  · rw [List.pairwise_map]
    simp only [hpath]
    exact (ofFiles files).roots_sorted

theorem referencesFirst_renumber (hsame : ∀ p ∈ files.map SourceFile.path,
    ∀ q ∈ files.map SourceFile.path, p.same q → p = q) :
    (ofFiles files').referencesFirst ((ofFiles files').roots .path) =
      ((ofFiles files).referencesFirst ((ofFiles files).roots .path)).map
        (renumber (files.map SourceFile.path) (files'.map SourceFile.path)) := by
  unfold referencesFirst
  rw [roots_renumber h hsame, effort_reordered h]
  exact congrArg Visit.done (Visit.foldl_root_renumber (renumber_injective h.once h.paths)
    (targets_renumber h) _ _ ⟨[], [], []⟩)

end

end ReferenceGraph

/-- A loop of the files is a loop of the same files in another order. -/
theorem Reordered.looped {files files' : List SourceFile} (h : Reordered files files')
    (hloop : Looped files') : Looped files := by
  -- each file is followed to the one of its path
  let twin (f' : SourceFile) : SourceFile := (files.find? (·.path == f'.path)).getD f'
  have htwin : ∀ f' ∈ files', twin f' ∈ files ∧ (twin f').path = f'.path := by
    intro f' hf'
    obtain ⟨f, hf, hpath⟩ := List.mem_map.mp (h.paths.mem_iff.mp (List.mem_map_of_mem hf'))
    have hfind := (find?_key_eq_some_iff h.once).mpr ⟨hf, hpath⟩
    have htwin : twin f' = f := congrArg (Option.getD · f') hfind
    exact htwin ▸ ⟨hf, hpath⟩
  have hrefers : ∀ a' b', Refers files' a' b' → Refers files (twin a') (twin b') := by
    rintro a' b' ⟨ha', hb', hne, r, hr, hpath⟩
    obtain ⟨ha, hapath⟩ := htwin a' ha'
    obtain ⟨hb, hbpath⟩ := htwin b' hb'
    refine ⟨ha, hb, fun heq => hne ?_, ?_⟩
    · have hpaths' := h.paths.nodup_iff.mpr h.once
      exact List.inj_on_of_nodup_map hpaths' ha' hb' (by rw [← hapath, ← hbpath, heq])
    · have hmem := List.mem_map_of_mem (f := Reference.path) hr
      rw [h.markers _ ha a' ha' hapath.symm, hpath, ← hbpath] at hmem
      exact List.mem_map.mp hmem
  obtain ⟨a', hloop⟩ := hloop
  exact ⟨twin a', hloop.lift twin hrefers⟩

theorem Cache.WellFormed.paths_idsOf {c : Cache} (h : c.WellFormed) (indices : List Nat) :
    (((ReferenceGraph.build c).idsOf indices).filterMap c.file?).map SourceFile.path =
      indices.filterMap ((c.files.map SourceFile.path)[·]?) := by
  rw [ReferenceGraph.idsOf, List.filterMap_filterMap, List.map_filterMap]
  apply List.filterMap_congr
  intro i _
  have hid : (ReferenceGraph.build c).nodes[i]?.map Node.id = c.files[i]?.map SourceFile.id := by
    rw [← List.getElem?_map, ReferenceGraph.build, ReferenceGraph.ofFiles_id, List.getElem?_map]
  rw [hid, List.getElem?_map]
  cases hf : c.files[i]? with
  | none => rfl
  | some f => simp [h.file?_of_mem_files (List.mem_of_getElem? hf)]

end IncrementalBuild
