import IncrementalBuild.Proofs.Renaming
/-!
# The reference graph under other ids

The graph of references numbers files by their places, so its components, its order and its cycles
do not depend on ids. What is stated besides: the spans in its cycles are references of files of
the graph.
-/
namespace IncrementalBuild.ReferenceGraph

variable (ρ : FileId → FileId)

/-! ## The graph -/

def addLink (paths : List Path) (self : Nat) (links : List Link) (r : Reference) : List Link :=
  match paths.idxOf? r.path with
  | none => links
  | some target =>
    if target = self ∨ links.any (·.target = target) then links
    else links ++ [⟨target, r.span⟩]

theorem addLink_rename (paths : List Path) (self : Nat) (links : List Link) (r : Reference) :
    addLink paths self (links.map (Link.rename ρ)) (r.rename ρ) =
      (addLink paths self links r).map (Link.rename ρ) := by
  unfold addLink
  rw [show (r.rename ρ).path = r.path from rfl]
  cases paths.idxOf? r.path with
  | none => rfl
  | some target =>
    have hany : (links.map (Link.rename ρ)).any (·.target = target) =
        links.any (·.target = target) := by
      rw [List.any_map]
      rfl
    simp only [hany]
    split
    · rfl
    · rw [List.map_append]
      rfl

theorem linksOf_rename (paths : List Path) (self : Nat) (references : List Reference) :
    linksOf paths self (references.map (Reference.rename ρ)) =
      (linksOf paths self references).map (Link.rename ρ) := by
  -- the induction is on the references left, with any links collected so far
  have hfold : ∀ links : List Link,
      (references.map (Reference.rename ρ)).foldl (addLink paths self)
        (links.map (Link.rename ρ)) =
      (references.foldl (addLink paths self) links).map (Link.rename ρ) := by
    induction references with
    | nil => exact fun links => rfl
    | cons r references ih =>
      intro links
      rw [List.map_cons, List.foldl_cons, List.foldl_cons, addLink_rename, ih]
  exact hfold []

theorem ofFiles_rename (files : List SourceFile) :
    ofFiles (files.map (SourceFile.rename ρ)) = (ofFiles files).rename ρ := by
  have hpaths : (files.map (SourceFile.rename ρ)).map SourceFile.path =
      files.map SourceFile.path := by
    rw [List.map_map]
    rfl
  simp only [ofFiles, hpaths, List.zipIdx_map, List.map_map, rename, mk.injEq]
  apply List.map_congr_left
  intro x _
  simp only [Function.comp_apply, Prod.map, SourceFile.rename, linksOf_rename, Node.rename, id]

theorem ofFiles_bare (files : List SourceFile) :
    ofFiles (files.map SourceFile.bare) = ofFiles files := by
  have hpaths : (files.map SourceFile.bare).map SourceFile.path = files.map SourceFile.path := by
    rw [List.map_map]
    rfl
  simp only [ofFiles, hpaths, List.zipIdx_map, List.map_map]
  rfl

theorem ofFiles_id (files : List SourceFile) :
    (ofFiles files).nodes.map Node.id = files.map SourceFile.id := by
  have hmap : (ofFiles files).nodes.map Node.id =
      files.zipIdx.map (SourceFile.id ∘ Prod.fst) := by
    unfold ofFiles
    rw [List.map_map]
    rfl
  rw [hmap, ← List.map_map, List.zipIdx_map_fst]

section
variable (g : ReferenceGraph)

theorem links_rename (i : Nat) : (g.rename ρ).links i = (g.links i).map (Link.rename ρ) := by
  unfold links rename
  rw [List.getElem?_map]
  cases g.nodes[i]? <;> rfl

theorem path_rename (i : Nat) :
    (((g.rename ρ).nodes[i]?.map Node.path).getD ⟨[]⟩) = (g.nodes[i]?.map Node.path).getD ⟨[]⟩ := by
  unfold rename
  rw [List.getElem?_map, Option.map_map]
  rfl

theorem size_rename : (g.rename ρ).size = g.size := List.length_map _

theorem targets_rename (i : Nat) : (g.rename ρ).targets i = g.targets i := by
  unfold targets
  rw [links_rename, List.map_map]
  rfl

theorem direct_rename : (g.rename ρ).direct = g.direct := by
  unfold direct rename
  rw [List.zipIdx_map, List.map_map]
  apply List.map_congr_left
  intro x _
  have htargets : (x.1.links.map (Link.rename ρ)).map Link.target = x.1.links.map Link.target := by
    rw [List.map_map]
    rfl
  simp only [Function.comp_apply, Prod.map, Node.rename, htargets, id]

theorem tangles_rename : (g.rename ρ).tangles = g.tangles := by
  simp only [tangles, components, reach, direct_rename, size_rename]

/-! ## Cycles and order -/

theorem step_rename (i : Nat) (l : Link) :
    (g.rename ρ).step i (l.rename ρ) = (g.step i l).rename ρ := by
  unfold step
  simp only [path_rename]
  rfl

theorem walk_rename (component : List Nat) (bound : Nat) (seen : List Nat) (i : Nat) :
    (g.rename ρ).walk component bound seen i =
      (g.walk component bound seen i).map (CycleStep.rename ρ) := by
  induction bound generalizing seen i with
  | zero => rfl
  | succ bound ih =>
    have hfind : ((g.rename ρ).links i).find? (·.target ∈ component) =
        ((g.links i).find? (·.target ∈ component)).map (Link.rename ρ) := by
      rw [links_rename, List.find?_map]
      rfl
    simp only [walk, hfind]
    split
    · rfl
    · cases (g.links i).find? (·.target ∈ component) with
      | none => rfl
      | some l =>
        simp only [Option.map_some, step_rename, List.map_cons, ← ih]
        rfl

theorem inner_rename (component : List Nat) :
    (g.rename ρ).inner component = (g.inner component).map (CycleStep.rename ρ) := by
  unfold inner
  rw [List.map_flatMap]
  congr 1
  funext i
  rw [links_rename, List.filter_map, List.map_map, List.map_map]
  apply List.map_congr_left
  intro l _
  exact step_rename ρ g i l

theorem cycles_rename : (g.rename ρ).cycles = g.cycles.map (ReferenceCycle.rename ρ) := by
  unfold cycles
  rw [tangles_rename, List.map_map]
  apply List.map_congr_left
  intro component _
  rw [walk_rename, inner_rename]
  rfl

theorem effort_rename : (g.rename ρ).effort = g.effort := by
  unfold effort
  rw [size_rename, List.length_flatMap, List.length_flatMap]
  congr 2
  simp only [rename, List.map_map]
  apply List.map_congr_left
  intro n _
  exact List.length_map _

theorem roots_rename (policy : OrderingPolicy) :
    (g.rename ρ).roots policy = g.roots policy := by
  cases policy with
  | resolution => simp only [roots, size_rename]
  | path => simp only [roots, size_rename, path_rename]

theorem idsOf_rename (indices : List Nat) :
    (g.rename ρ).idsOf indices = (g.idsOf indices).map ρ := by
  unfold idsOf rename
  rw [List.map_filterMap]
  congr 1
  funext i
  rw [List.getElem?_map, Option.map_map, Option.map_map]
  rfl

theorem order_cycles (policy : OrderingPolicy) : (g.order policy).cycles = g.cycles := by
  unfold order
  cases g.cycles with
  | nil => rfl
  | cons c cycles => rfl

theorem order_rename (policy : OrderingPolicy) :
    (g.rename ρ).order policy = (g.order policy).rename ρ := by
  have htargets : (g.rename ρ).targets = g.targets := funext fun i => targets_rename ρ g i
  have hnodes : (g.rename ρ).nodes.map Node.id = (g.nodes.map Node.id).map ρ := by
    unfold rename
    rw [List.map_map, List.map_map]
    rfl
  unfold order referencesFirst
  rw [cycles_rename, roots_rename, effort_rename, htargets, idsOf_rename, hnodes]
  cases g.cycles with
  | nil => rfl
  | cons c cycles => rfl

end

/-! ## Where the spans of cycles are -/

theorem mem_addLink {paths : List Path} {self : Nat} {links : List Link} {r : Reference}
    {l : Link} (hl : l ∈ addLink paths self links r) : l ∈ links ∨ r.span = l.span := by
  unfold addLink at hl
  cases hidx : paths.idxOf? r.path with
  | none => exact Or.inl (by simpa [hidx] using hl)
  | some target =>
    simp only [hidx] at hl
    split at hl
    · exact Or.inl hl
    · rcases List.mem_append.mp hl with hl | hl
      · exact Or.inl hl
      · rw [List.mem_singleton.mp hl]
        exact Or.inr rfl

theorem linksOf_span {paths : List Path} {self : Nat} {references : List Reference} {l : Link}
    (hl : l ∈ linksOf paths self references) : ∃ r ∈ references, r.span = l.span := by
  have hfold : ∀ links : List Link, l ∈ references.foldl (addLink paths self) links →
      l ∈ links ∨ ∃ r ∈ references, r.span = l.span := by
    clear hl
    induction references with
    | nil => exact fun links hl => Or.inl hl
    | cons r references ih =>
      intro links hl
      rcases ih _ hl with hl | ⟨r', hr', hs⟩
      · rcases mem_addLink hl with hl | hs
        · exact Or.inl hl
        · exact Or.inr ⟨r, List.mem_cons_self, hs⟩
      · exact Or.inr ⟨r', List.mem_cons_of_mem r hr', hs⟩
  rcases hfold [] hl with hl | hl
  · exact absurd hl List.not_mem_nil
  · exact hl

theorem links_ofFiles {files : List SourceFile} {i : Nat} {l : Link}
    (hl : l ∈ (ofFiles files).links i) : ∃ f ∈ files, ∃ r ∈ f.references, r.span = l.span := by
  unfold links at hl
  cases hn : (ofFiles files).nodes[i]? with
  | none => simp [hn] at hl
  | some node =>
    simp only [hn, Option.map_some, Option.getD_some] at hl
    obtain ⟨x, hx, rfl⟩ := List.mem_map.mp (List.mem_of_getElem? hn)
    obtain ⟨r, hr, hs⟩ := linksOf_span hl
    exact ⟨x.1, List.fst_mem_of_mem_zipIdx hx, r, hr, hs⟩

theorem walk_link {g : ReferenceGraph} {component : List Nat} {bound : Nat} {seen : List Nat}
    {i : Nat} {s : CycleStep} (hs : s ∈ g.walk component bound seen i) :
    ∃ j, ∃ l ∈ g.links j, s = g.step j l := by
  induction bound generalizing seen i with
  | zero => simp [walk] at hs
  | succ bound ih =>
    simp only [walk] at hs
    split at hs
    · simp at hs
    · split at hs
      · simp at hs
      · next l hl =>
        rcases List.mem_cons.mp hs with rfl | hs
        · exact ⟨i, l, List.mem_of_find?_eq_some hl, rfl⟩
        · exact ih hs

/-- Every step of a cycle is one that a link of the graph makes. -/
theorem cycles_link {g : ReferenceGraph} {c : ReferenceCycle} (hc : c ∈ g.cycles) {s : CycleStep}
    (hs : s ∈ c.members ++ c.references) : ∃ j, ∃ l ∈ g.links j, s = g.step j l := by
  obtain ⟨component, _, rfl⟩ := List.mem_map.mp hc
  rcases List.mem_append.mp hs with hs | hs
  · exact walk_link hs
  · obtain ⟨j, _, hs⟩ := List.mem_flatMap.mp hs
    obtain ⟨l, hl, rfl⟩ := List.mem_map.mp hs
    exact ⟨j, l, (List.mem_filter.mp hl).1, rfl⟩

/-- Every step of a cycle is a reference that a file of the graph has. -/
theorem cycles_span {files : List SourceFile} {c : ReferenceCycle}
    (hc : c ∈ (ofFiles files).cycles) {s : CycleStep} (hs : s ∈ c.members ++ c.references) :
    ∃ f ∈ files, ∃ r ∈ f.references, r.span = s.reference := by
  obtain ⟨j, l, hl, rfl⟩ := cycles_link hc hs
  exact links_ofFiles hl

end IncrementalBuild.ReferenceGraph
