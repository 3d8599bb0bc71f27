import IncrementalBuild.Proofs.GraphRenaming
import IncrementalBuild.Proofs.Reachability
/-!
# References between files

The graph of a cycle numbers its files. What is stated here, for files under different paths: the
links of a node are the first markers of its file for other files of the cycle, in the order they
are written, and so the references, the loops and the tangles of the graph are those of the files.
-/
namespace IncrementalBuild

/-- A file refers to another file of a list when it has a marker for its path. -/
def Refers (files : List SourceFile) (a b : SourceFile) : Prop :=
  a ∈ files ∧ b ∈ files ∧ a ≠ b ∧ ∃ r ∈ a.references, r.path = b.path

/-- Some file leads back to itself. -/
def Looped (files : List SourceFile) : Prop := ∃ a, Relation.TransGen (Refers files) a a

/-- The references that are the first ones for their paths. -/
def firstMarkers : List Reference → List Reference
  | [] => []
  | r :: rest => r :: (firstMarkers rest).filter (·.path ≠ r.path)

/-! ## First markers -/

theorem firstMarkers_sublist (references : List Reference) :
    (firstMarkers references).Sublist references := by
  induction references with
  | nil => exact .refl _
  | cons r rest ih => exact (List.filter_sublist.trans ih).cons_cons r

theorem nodup_firstMarkers (references : List Reference) :
    ((firstMarkers references).map Reference.path).Nodup := by
  induction references with
  | nil => exact List.nodup_nil
  | cons r rest ih =>
    rw [firstMarkers, List.map_cons, List.nodup_cons]
    constructor
    · intro hr
      obtain ⟨x, hx, hpath⟩ := List.mem_map.mp hr
      exact (of_decide_eq_true (List.mem_filter.mp hx).2) hpath
    · exact ih.sublist (List.filter_sublist.map _)

theorem mem_firstMarkers {references : List Reference} {r : Reference} :
    r ∈ firstMarkers references ↔ references.find? (·.path = r.path) = some r := by
  induction references with
  | nil => simp [firstMarkers]
  | cons x rest ih =>
    rw [firstMarkers, List.mem_cons, List.mem_filter, ih, List.find?_cons]
    by_cases hpath : x.path = r.path
    · simp [hpath, eq_comm]
    · simp [hpath, Ne.symm hpath]
      rintro rfl
      exact absurd rfl hpath

theorem exists_firstMarker {references : List Reference} {r : Reference} (hr : r ∈ references) :
    ∃ first ∈ firstMarkers references, first.path = r.path := by
  have hsome : (references.find? (·.path = r.path)).isSome :=
    List.find?_isSome.mpr ⟨r, hr, decide_eq_true rfl⟩
  obtain ⟨first, hfirst⟩ := Option.isSome_iff_exists.mp hsome
  have hpath : first.path = r.path := by simpa using List.find?_some hfirst
  exact ⟨first, mem_firstMarkers.mpr (hpath ▸ hfirst), hpath⟩

/-- A file that refers to another one has a first marker for it. -/
theorem Refers.exists_first {files : List SourceFile} {a b : SourceFile} (h : Refers files a b) :
    ∃ first, a.references.find? (·.path = b.path) = some first := by
  obtain ⟨_, _, _, r, hr, hpath⟩ := h
  obtain ⟨first, hfirst, hsame⟩ := exists_firstMarker hr
  exact ⟨first, hpath ▸ hsame ▸ mem_firstMarkers.mp hfirst⟩

namespace ReferenceGraph

/-! ## Links -/

/-- The link that a reference makes, whatever the links before it are. -/
def link? (paths : List Path) (self : Nat) (r : Reference) : Option Link :=
  (paths.idxOf? r.path).bind fun target => if target = self then none else some ⟨target, r.span⟩

/-- The link that a reference makes after others. -/
def newLink? (paths : List Path) (self : Nat) (links : List Link) (r : Reference) : Option Link :=
  (link? paths self r).filter fun l => !links.any (·.target = l.target)

theorem addLink_eq (paths : List Path) (self : Nat) (links : List Link) (r : Reference) :
    addLink paths self links r = links ++ (newLink? paths self links r).toList := by
  unfold addLink newLink? link?
  cases hidx : paths.idxOf? r.path with
  | none => simp
  | some target =>
    by_cases hself : target = self
    · simp [hself]
    · cases hany : links.any (·.target = target) <;> simp [hself, hany, Option.filter]

theorem link?_eq_some_iff {paths : List Path} {self : Nat} {r : Reference} {l : Link} :
    link? paths self r = some l ↔
      paths.idxOf? r.path = some l.target ∧ l.target ≠ self ∧ l.span = r.span := by
  unfold link?
  rw [Option.bind_eq_some_iff]
  constructor
  · rintro ⟨target, hidx, hl⟩
    split at hl
    · contradiction
    · next hself =>
      obtain rfl := Option.some.inj hl
      exact ⟨hidx, hself, rfl⟩
  · rintro ⟨hidx, hself, hspan⟩
    refine ⟨l.target, hidx, ?_⟩
    rw [if_neg hself, ← hspan]

/-- Links of references have the same target if the references have the same path. -/
theorem link?_target_iff {paths : List Path} {self : Nat} {r x : Reference} {l m : Link}
    (hl : link? paths self r = some l) (hm : link? paths self x = some m) :
    l.target = m.target ↔ x.path = r.path := by
  have hr := (link?_eq_some_iff.mp hl).1
  have hx := (link?_eq_some_iff.mp hm).1
  constructor
  · intro heq
    obtain ⟨_, hpath, _⟩ := List.idxOf?_eq_some_iff.mp hr
    obtain ⟨_, hpath', _⟩ := List.idxOf?_eq_some_iff.mp hx
    simp only [← hpath, ← hpath', heq]
  · intro hpath
    exact Option.some.inj (hr.symm.trans (hpath ▸ hx))

theorem newLink?_eq_none {paths : List Path} {self : Nat} {links : List Link} {r : Reference}
    {l : Link} (hl : link? paths self r = some l) (hany : links.any (·.target = l.target)) :
    newLink? paths self links r = none := by
  rw [newLink?, hl, Option.filter_some, hany]
  rfl

theorem any_addLink {paths : List Path} {self : Nat} {r : Reference} {l : Link}
    (hl : link? paths self r = some l) (links : List Link) :
    (addLink paths self links r).any (·.target = l.target) := by
  rw [addLink_eq, List.any_append]
  cases hany : links.any (·.target = l.target) with
  | true => rfl
  | false =>
    rw [newLink?, hl, Option.filter_some, hany]
    simp

/-- After a reference has been read, only references to other paths make new links. -/
theorem newLink?_addLink (paths : List Path) (self : Nat) (links : List Link) (r x : Reference) :
    newLink? paths self (addLink paths self links r) x =
      if x.path ≠ r.path then newLink? paths self links x else none := by
  cases hm : link? paths self x with
  | none => simp [newLink?, hm]
  | some m =>
    by_cases hpath : x.path = r.path
    · -- the first reference makes a link to the same target, unless there was one before
      have hl : link? paths self r = some ⟨m.target, r.span⟩ := by
        obtain ⟨hidx, hself, _⟩ := link?_eq_some_iff.mp hm
        exact link?_eq_some_iff.mpr ⟨hpath ▸ hidx, hself, rfl⟩
      have hany := any_addLink hl links
      rw [if_neg (not_not.mpr hpath), newLink?_eq_none hm hany]
    · have hany : (addLink paths self links r).any (·.target = m.target) =
          links.any (·.target = m.target) := by
        rw [addLink_eq, List.any_append]
        cases hl : link? paths self r with
        | none => simp [newLink?, hl]
        | some l =>
          have htarget : l.target ≠ m.target := mt (link?_target_iff hl hm).mp hpath
          cases hfresh : newLink? paths self links r with
          | none => simp
          | some l' =>
            obtain rfl : l = l' := by
              have := (Option.filter_eq_some_iff.mp hfresh).1
              exact Option.some.inj (hl.symm.trans this)
            simp [htarget]
      rw [if_pos hpath]
      simp only [newLink?, hm, Option.filter_some, hany]

theorem linksOf_eq (paths : List Path) (self : Nat) (references : List Reference) :
    linksOf paths self references = (firstMarkers references).filterMap (link? paths self) := by
  -- the induction is on the references left, with any links made so far
  have hfold : ∀ links : List Link, references.foldl (addLink paths self) links =
      links ++ (firstMarkers references).filterMap (newLink? paths self links) := by
    induction references with
    | nil => simp [firstMarkers]
    | cons r rest ih =>
      intro links
      rw [List.foldl_cons, ih, funext (newLink?_addLink paths self links r), addLink_eq,
        List.append_assoc, firstMarkers, List.filterMap_cons, List.filterMap_filter]
      simp only [decide_eq_true_eq]
      cases newLink? paths self links r <;> rfl
  have hnil : newLink? paths self [] = link? paths self := by
    funext r
    unfold newLink?
    cases link? paths self r <;> rfl
  exact (hfold []).trans (hnil ▸ rfl)

/-! ## The graph of files -/

section
variable {files : List SourceFile}

theorem size_ofFiles (files : List SourceFile) : (ofFiles files).size = files.length := by
  simp [ofFiles, size]

theorem node_ofFiles {i : Nat} {a : SourceFile} (ha : files[i]? = some a) :
    (ofFiles files).nodes[i]? =
      some ⟨a.id, a.path, linksOf (files.map SourceFile.path) i a.references⟩ := by
  simp [ofFiles, ha]

theorem links_of_file {i : Nat} {a : SourceFile} (ha : files[i]? = some a) :
    (ofFiles files).links i =
      (firstMarkers a.references).filterMap (link? (files.map SourceFile.path) i) := by
  rw [links, node_ofFiles ha, Option.map_some, Option.getD_some, linksOf_eq]

theorem filterMap_idxOf {c : List SourceFile} (hc : c ⊆ files) :
    (c.map files.idxOf).filterMap (files[·]?) = c := by
  rw [List.filterMap_map]
  calc c.filterMap ((files[·]?) ∘ files.idxOf)
    _ = c.filterMap some := List.filterMap_congr fun a ha => List.getElem?_idxOf (hc ha)
    _ = c := List.filterMap_some

variable (hpaths : (files.map SourceFile.path).Nodup)
include hpaths

theorem idxOf?_path {i : Nat} {p : Path} : (files.map SourceFile.path).idxOf? p = some i ↔
    ∃ b, files[i]? = some b ∧ b.path = p := by
  rw [← Option.map_eq_some_iff, ← List.getElem?_map, List.idxOf?_eq_some_iff,
    List.getElem?_eq_some_iff]
  constructor
  · rintro ⟨hi, hp, _⟩
    exact ⟨hi, hp⟩
  · rintro ⟨hi, hp⟩
    refine ⟨hi, hp, fun j hj hpj => ?_⟩
    exact Nat.ne_of_lt hj ((hpaths.getElem_inj_iff).mp (hpj.trans hp.symm))

theorem link?_file {i : Nat} {r : Reference} {l : Link} :
    link? (files.map SourceFile.path) i r = some l ↔
      (∃ b, files[l.target]? = some b ∧ b.path = r.path) ∧ l.target ≠ i ∧ l.span = r.span := by
  rw [link?_eq_some_iff, idxOf?_path hpaths]

theorem edge_iff {i j : Nat} {a b : SourceFile} (ha : files[i]? = some a)
    (hb : files[j]? = some b) : (ofFiles files).Edge i j ↔ Refers files a b := by
  have hne : j ≠ i ↔ a ≠ b := by
    constructor
    · rintro hji rfl
      obtain ⟨hi, _⟩ := List.getElem?_eq_some_iff.mp ha
      exact hji ((List.getElem?_inj hi hpaths.of_map).mp (ha.trans hb.symm)).symm
    · rintro hab rfl
      exact hab (Option.some.inj (ha.symm.trans hb))
  unfold Edge targets
  rw [links_of_file ha, List.mem_map]
  constructor
  · rintro ⟨l, hl, rfl⟩
    obtain ⟨r, hr, hlink⟩ := List.mem_filterMap.mp hl
    obtain ⟨⟨b', hb', hpath⟩, hself, _⟩ := (link?_file hpaths).mp hlink
    obtain rfl : b' = b := Option.some.inj (hb'.symm.trans hb)
    exact ⟨List.mem_of_getElem? ha, List.mem_of_getElem? hb, hne.mp hself, r,
      (firstMarkers_sublist _).subset hr, hpath.symm⟩
  · rintro ⟨_, _, hab, r, hr, hpath⟩
    obtain ⟨first, hfirst, hsame⟩ := exists_firstMarker hr
    refine ⟨⟨j, first.span⟩, List.mem_filterMap.mpr ⟨first, hfirst, ?_⟩, rfl⟩
    exact (link?_file hpaths).mpr ⟨⟨b, hb, (hsame.trans hpath).symm⟩, hne.mpr hab, rfl⟩

theorem edge_bounded {i j : Nat} (h : (ofFiles files).Edge i j) :
    i < files.length ∧ j < files.length := by
  have hi : i < files.length := size_ofFiles files ▸ h.lt_size
  refine ⟨hi, ?_⟩
  unfold Edge targets at h
  rw [links_of_file (List.getElem?_eq_getElem hi)] at h
  obtain ⟨l, hl, rfl⟩ := List.mem_map.mp h
  obtain ⟨r, _, hlink⟩ := List.mem_filterMap.mp hl
  obtain ⟨⟨b, hb, _⟩, _⟩ := (link?_file hpaths).mp hlink
  exact (List.getElem?_eq_some_iff.mp hb).1

theorem ofFiles_carries : Carries files.idxOf files (Refers files) (ofFiles files).Edge where
  inj a ha b _ heq := (List.idxOf_inj ha).mp heq
  push a b hab :=
    ⟨hab.1, hab.2.1,
      (edge_iff hpaths (List.getElem?_idxOf hab.1) (List.getElem?_idxOf hab.2.1)).mpr hab⟩
  pull i j hij := by
    obtain ⟨hi, hj⟩ := edge_bounded hpaths hij
    refine ⟨files[i], files[j], ?_, hpaths.of_map.idxOf_getElem i hi,
      hpaths.of_map.idxOf_getElem j hj⟩
    exact (edge_iff hpaths (List.getElem?_eq_getElem hi) (List.getElem?_eq_getElem hj)).mp hij

theorem idxOf_files : files.map files.idxOf = List.range (ofFiles files).size := by
  rw [size_ofFiles]
  apply List.ext_getElem
  · simp
  · intro i hi _
    rw [List.length_map] at hi
    simp [hpaths.of_map.idxOf_getElem i hi]

theorem edge_irrefl (i : Nat) : ¬ (ofFiles files).Edge i i := by
  intro h
  have ha := List.getElem?_eq_getElem (edge_bounded hpaths h).1
  exact ((edge_iff hpaths ha ha).mp h).2.2.1 rfl

theorem link?_idxOf {a : SourceFile} {r : Reference} {l : Link} :
    link? (files.map SourceFile.path) (files.idxOf a) r = some l ↔
      ∃ b ∈ files, b ≠ a ∧ b.path = r.path ∧ l = ⟨files.idxOf b, r.span⟩ := by
  rw [link?_file hpaths]
  constructor
  · rintro ⟨⟨b, hb, hpath⟩, hself, hspan⟩
    obtain ⟨hi, rfl⟩ := List.getElem?_eq_some_iff.mp hb
    have hidx := hpaths.of_map.idxOf_getElem l.target hi
    refine ⟨files[l.target], List.getElem_mem hi, ?_, hpath, ?_⟩
    · exact fun hba => hself (hidx ▸ congrArg files.idxOf hba)
    · rw [hidx, ← hspan]
  · rintro ⟨b, hb, hba, hpath, rfl⟩
    exact ⟨⟨b, List.getElem?_idxOf hb, hpath⟩, fun h => hba ((List.idxOf_inj hb).mp h), rfl⟩

/-- There are no cycles if and only if no file leads back to itself. -/
theorem cycles_eq_nil_iff : (ofFiles files).cycles = [] ↔ ¬ Looped files := by
  rw [Looped, cycles, List.map_eq_nil_iff, tangles_eq_nil_iff (edge_irrefl hpaths),
    ← (ofFiles_carries hpaths).exists_loop_iff, not_exists]

end

end ReferenceGraph

end IncrementalBuild
