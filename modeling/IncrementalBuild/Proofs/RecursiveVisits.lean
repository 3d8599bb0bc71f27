import IncrementalBuild.Proofs.EmissionOrder
import IncrementalBuild.Proofs.PostOrder
/-!
# Visits by recursion

The order of emission is told without a stack: a file that is not done yet is done when the files
it refers to have been visited, in the order of its markers. What is stated here: on files without
a loop the visits with a stack come to the same order, since each of their steps leaves alone what
the recursion has still to add. So files that already stand behind those they refer to stay where
they are.
-/
namespace IncrementalBuild

theorem idxOf_lt_of_sublist {α : Type} [DecidableEq α] {l : List α} {a b : α}
    (h : [b, a].Sublist l) (hl : l.Nodup) : l.idxOf b < l.idxOf a := by
  induction l with
  | nil => cases h
  | cons c l ih =>
    obtain ⟨hc, hl⟩ := List.nodup_cons.mp hl
    have hskip : ∀ x ∈ l, (c :: l).idxOf x = l.idxOf x + 1 := fun x hx =>
      List.idxOf_cons_ne l fun hcx => hc (hcx ▸ hx)
    cases h with
    | cons _ h =>
      rw [hskip b (h.subset (by simp)), hskip a (h.subset (by simp))]
      exact Nat.succ_lt_succ (ih h hl)
    | cons_cons _ h =>
      rw [List.idxOf_cons_self, hskip a (List.singleton_sublist.mp h)]
      exact Nat.succ_pos _

theorem mem_of_sublist {α : Type} [DecidableEq α] {before after : List α} {a b : α}
    (hnodup : (before ++ a :: after).Nodup) (h : [b, a].Sublist (before ++ a :: after)) :
    b ∈ before := by
  have hlt := idxOf_lt_of_sublist h hnodup
  have ha : a ∉ before := fun hin =>
    (List.nodup_append.mp hnodup).2.2 a hin a List.mem_cons_self rfl
  by_contra hb
  rw [List.idxOf_append_of_notMem ha, List.idxOf_append_of_notMem hb, List.idxOf_cons_self] at hlt
  omega

/-! ## Visits with a stack -/

namespace Visit

variable {targets : Nat → List Nat} {n depth : Nat} {v : Visit}

/-- What will be done when the open nodes are, by recursion: each is done behind the targets it has
still to visit, the innermost node first. -/
def outlook? (targets : Nat → List Nat) (depth : Nat) (v : Visit) : Option (List Nat) :=
  v.stack.foldlM (fun done e => (PostOrder.visitAll? targets depth done e.2).map (· ++ [e.1]))
    v.done

theorem outlook?_cons {i : Nat} {todo : List Nat} {outer : List (Nat × List Nat)}
    {seen done : List Nat} : outlook? targets depth ⟨seen, (i, todo) :: outer, done⟩ =
      (PostOrder.visitAll? targets depth done todo).bind fun inner =>
        outlook? targets depth ⟨seen, outer, inner ++ [i]⟩ := by
  unfold outlook?
  rw [List.foldlM_cons, Option.bind_eq_bind, Option.bind_map]
  rfl

section
variable {rank : Nat → Nat} (hrank : ∀ i, ∀ j ∈ targets i, rank j < rank i)
  (hdepth : ∀ i < n, rank i < depth) (hbounded : ∀ i, ∀ j ∈ targets i, j < n)
include hrank hdepth

theorem outlook?_enter {seen done : List Nat} {i : Nat} (hi : i < n) (hdone : i ∉ done)
    (outer : List (Nat × List Nat)) :
    outlook? targets depth ⟨seen, (i, targets i) :: outer, done⟩ =
      (PostOrder.visit? targets depth done i).bind fun now =>
        outlook? targets depth ⟨seen, outer, now⟩ := by
  rw [outlook?_cons, PostOrder.visit?_of_not_mem hrank (hdepth i hi) hdone, Option.bind_map]
  rfl

include hbounded

theorem Valid.outlook?_step (h : v.Valid targets n) (hacyclic : ∀ i, ¬ Route targets i i) :
    outlook? targets depth (v.step targets) = outlook? targets depth v := by
  obtain ⟨seen, stack, done⟩ := v
  obtain ⟨_, heq⟩ | ⟨i, outer, hstack, heq⟩ | ⟨i, j, rest, outer, hstack, hj, heq⟩ |
    ⟨i, j, rest, outer, hstack, hj, heq⟩ := step_cases targets ⟨seen, stack, done⟩
  · rw [heq]
  · obtain rfl : stack = (i, []) :: outer := hstack
    rw [heq, outlook?_cons]
    rfl
  · have hdone : j ∈ done := h.target_done hacyclic hstack (h.next_target hstack) hj
    have hlt : rank j < depth := hdepth j (hbounded i j (h.next_target hstack))
    obtain rfl : stack = (i, j :: rest) :: outer := hstack
    rw [heq, outlook?_cons, outlook?_cons, PostOrder.visitAll?_cons,
      PostOrder.visit?_of_mem (Nat.zero_lt_of_lt hlt) hdone]
    rfl
  · have hdone : j ∉ done := fun hd => hj ((h.seen j).mpr (List.mem_append_right _ hd))
    have hlt : j < n := hbounded i j (h.next_target hstack)
    obtain rfl : stack = (i, j :: rest) :: outer := hstack
    rw [heq, outlook?_cons, PostOrder.visitAll?_cons, Option.bind_assoc]
    exact (outlook?_enter hrank hdepth hlt hdone _).trans
      (congrArg _ (funext fun now => outlook?_cons))

theorem Valid.outlook?_run (h : v.Valid targets n) (hacyclic : ∀ i, ¬ Route targets i i)
    (bound : Nat) :
    outlook? targets depth (Visit.run targets bound v) = outlook? targets depth v := by
  induction bound generalizing v with
  | zero => rfl
  | succ bound ih =>
    unfold Visit.run
    split
    · rfl
    · exact (ih (h.step hbounded hacyclic)).trans
        (h.outlook?_step hrank hdepth hbounded hacyclic)

/-- A visit from a root adds what the recursion adds for it. -/
theorem Complete.visit?_root (h : v.Complete targets n) (hacyclic : ∀ i, ¬ Route targets i i)
    {bound : Nat} (hbound : ∑ i ∈ Finset.range n, ((targets i).length + 1) ≤ bound) {i : Nat}
    (hi : i < n) :
    PostOrder.visit? targets depth v.done i = some (Visit.root targets bound v i).done := by
  by_cases hin : i ∈ v.seen
  · have hdone : i ∈ v.done := by simpa [h.seen, opened, h.stack] using hin
    rw [root_of_mem hin]
    exact PostOrder.visit?_of_mem (Nat.zero_lt_of_lt (hdepth i hi)) hdone
  · have hdone : i ∉ v.done := fun hd => hin ((h.seen i).mpr (List.mem_append_right _ hd))
    have hclosed := (h.root hbounded hacyclic hbound hi).1.stack
    rw [h.root_of_not_mem hin] at hclosed ⊢
    calc PostOrder.visit? targets depth v.done i
      _ = outlook? targets depth (v.enter targets i) := by
        rw [Visit.enter, h.stack, outlook?_enter hrank hdepth hi hdone]
        exact (Option.bind_fun_some _).symm
      _ = outlook? targets depth (Visit.run targets bound (v.enter targets i)) :=
        ((h.enter hi hin).outlook?_run hrank hdepth hbounded hacyclic bound).symm
      _ = some (Visit.run targets bound (v.enter targets i)).done := by
        rw [outlook?, hclosed]
        rfl

/-- Visits from roots add what the recursion adds for them. -/
theorem Complete.visitAll?_roots (h : v.Complete targets n) (hacyclic : ∀ i, ¬ Route targets i i)
    {bound : Nat} (hbound : ∑ i ∈ Finset.range n, ((targets i).length + 1) ≤ bound)
    (roots : List Nat) (hroots : ∀ i ∈ roots, i < n) :
    PostOrder.visitAll? targets depth v.done roots =
      some (roots.foldl (Visit.root targets bound) v).done := by
  induction roots generalizing v with
  | nil => rfl
  | cons i roots ih =>
    obtain ⟨hi, hroots⟩ := List.forall_mem_cons.mp hroots
    rw [PostOrder.visitAll?_cons, h.visit?_root hrank hdepth hbounded hacyclic hbound hi]
    exact ih (h.root hbounded hacyclic hbound hi).1 hroots

end

end Visit

namespace ReferenceGraph

/-- On a graph without loops the visits come to the order of the recursion. -/
theorem visitAll?_referencesFirst {g : ReferenceGraph} (hbounded : ∀ i j, g.Edge i j → j < g.size)
    (hacyclic : ∀ i, ¬ Relation.TransGen g.Edge i i) {roots : List Nat}
    (hroots : roots.Perm (List.range g.size)) {depth : Nat} (hdepth : g.size ≤ depth) :
    PostOrder.visitAll? g.targets depth [] roots = some (g.referencesFirst roots) := by
  obtain ⟨hperm, hordered⟩ := referencesFirst_ordered hbounded hacyclic hroots
  have hmem : ∀ i, i ∈ g.referencesFirst roots ↔ i < g.size := fun i =>
    hperm.mem_iff.trans List.mem_range
  -- the place in that order bounds how deep the recursion of a node goes
  have hrank : ∀ i, ∀ j ∈ g.targets i,
      (g.referencesFirst roots).idxOf j < (g.referencesFirst roots).idxOf i := by
    intro i j hij
    have hi : i ∈ g.referencesFirst roots := (hmem i).mpr (Edge.lt_size hij)
    have hj : j ∈ g.referencesFirst roots := (hmem j).mpr (hbounded i j hij)
    have hne : i ≠ j := by
      rintro rfl
      exact hacyclic i (.single hij)
    exact idxOf_lt_of_sublist (pair_sublist hordered hi hj hne hij)
      (hperm.nodup_iff.mpr List.nodup_range)
  have hplace : ∀ i < g.size, (g.referencesFirst roots).idxOf i < depth := by
    intro i hi
    have hlt := List.idxOf_lt_length_iff.mpr ((hmem i).mpr hi)
    rw [hperm.length_eq, List.length_range] at hlt
    exact hlt.trans_le hdepth
  have hlt : ∀ i ∈ roots, i < g.size := fun i hi => List.mem_range.mp (hroots.mem_iff.mp hi)
  exact Visit.Complete.visitAll?_roots hrank hplace hbounded ⟨Visit.empty_valid, rfl⟩ hacyclic
    effort_eq.ge roots hlt

end ReferenceGraph

/-! ## Repeated markers -/

namespace PostOrder

variable {α : Type} [DecidableEq α] {targets : α → List α} {depth : Nat} {done : List α}

section
variable {target? : Reference → Option α}

theorem visitAll?_filter {keep : Reference → Bool} {references : List Reference}
    (hkeep : ∀ r ∈ references, keep r = false → ∀ a, target? r = some a → a ∈ done)
    (hdepth : 0 < depth) :
    visitAll? targets depth done ((references.filter keep).filterMap target?) =
      visitAll? targets depth done (references.filterMap target?) := by
  induction references generalizing done with
  | nil => rfl
  | cons r rest ih =>
    obtain ⟨hr, hrest⟩ := List.forall_mem_cons.mp hkeep
    rw [List.filter_cons]
    cases htarget : target? r with
    | none =>
      rw [List.filterMap_cons_none htarget, ← ih hrest]
      split
      · rw [List.filterMap_cons_none htarget]
      · rfl
    | some a =>
      rw [List.filterMap_cons_some htarget, visitAll?_cons]
      split
      · rw [List.filterMap_cons_some htarget, visitAll?_cons]
        exact Option.bind_congr fun now hnow =>
          ih fun x hx hout b hb => visit?_grows hnow (hrest x hx hout b hb)
      · next hout =>
        rw [visit?_of_mem hdepth (hr (Bool.eq_false_iff.mpr hout) a htarget)]
        exact ih hrest

/-- Of the markers for one path, only the first leads to a visit. -/
theorem visitAll?_firstMarkers (hpath : ∀ r x : Reference, x.path = r.path → target? x = target? r)
    (references : List Reference) :
    visitAll? targets depth done ((firstMarkers references).filterMap target?) =
      visitAll? targets depth done (references.filterMap target?) := by
  induction references generalizing done with
  | nil => rfl
  | cons r rest ih =>
    rw [firstMarkers]
    cases htarget : target? r with
    | none =>
      have hsame : ((firstMarkers rest).filter (·.path ≠ r.path)).filterMap target? =
          (firstMarkers rest).filterMap target? := by
        rw [List.filterMap_filter]
        refine List.filterMap_congr fun x _ => ?_
        by_cases hx : x.path = r.path
        · simp [hx, hpath r x hx, htarget]
        · simp [hx]
      rw [List.filterMap_cons_none htarget, List.filterMap_cons_none htarget, hsame, ih]
    | some a =>
      rw [List.filterMap_cons_some htarget, List.filterMap_cons_some htarget, visitAll?_cons,
        visitAll?_cons]
      refine Option.bind_congr fun now hnow => ?_
      have hdepth : 0 < depth := by
        cases depth with
        | zero => cases hnow
        | succ depth => exact Nat.succ_pos depth
      rw [← ih]
      refine visitAll?_filter (fun x _ hx b hb => ?_) hdepth
      have hx : x.path = r.path := by simpa using hx
      have hab : b = a := Option.some.inj (hb.symm.trans ((hpath r x hx).trans htarget))
      exact hab ▸ visit?_mem hnow

end

end PostOrder

/-! ## Visits of files -/

/-- The other file that a marker of a file names. -/
def markedFile? (files : List SourceFile) (a : SourceFile) (r : Reference) : Option SourceFile :=
  (files.find? (·.path == r.path)).filter (· != a)

/-- The other files that a file has markers for, in the order of the markers. -/
def referred (files : List SourceFile) (a : SourceFile) : List SourceFile :=
  a.references.filterMap (markedFile? files a)

/-- The files in the order of a policy. -/
def OrderingPolicy.arrange : OrderingPolicy → List SourceFile → List SourceFile
  | .resolution, files => files
  | .path, files => files.mergeSort fun a b => a.path.le b.path

theorem OrderingPolicy.arrange_perm (policy : OrderingPolicy) (files : List SourceFile) :
    (policy.arrange files).Perm files := by
  cases policy with
  | resolution => exact .refl files
  | path => exact List.mergeSort_perm _ _

section
variable {files : List SourceFile} (hpaths : (files.map SourceFile.path).Nodup)
include hpaths

theorem markedFile?_eq_some_iff {a b : SourceFile} {r : Reference} :
    markedFile? files a r = some b ↔ b ∈ files ∧ b ≠ a ∧ b.path = r.path := by
  rw [markedFile?, Option.filter_eq_some_iff, find?_key_eq_some_iff hpaths, bne_iff_ne]
  tauto

theorem mem_referred {a b : SourceFile} (ha : a ∈ files) :
    b ∈ referred files a ↔ Refers files a b := by
  unfold referred
  rw [List.mem_filterMap]
  constructor
  · rintro ⟨r, hr, hmarked⟩
    obtain ⟨hb, hne, hpath⟩ := (markedFile?_eq_some_iff hpaths).mp hmarked
    exact ⟨ha, hb, hne.symm, r, hr, hpath.symm⟩
  · rintro ⟨_, hb, hne, r, hr, hpath⟩
    exact ⟨r, hr, (markedFile?_eq_some_iff hpaths).mpr ⟨hb, hne.symm, hpath.symm⟩⟩

namespace ReferenceGraph

omit hpaths in
theorem idsOf_idxOf {all : List SourceFile} (hall : all ⊆ files) :
    (ofFiles files).idsOf (all.map files.idxOf) = all.map SourceFile.id := by
  rw [idsOf, List.filterMap_map]
  calc all.filterMap ((fun i => (ofFiles files).nodes[i]?.map Node.id) ∘ files.idxOf)
    _ = all.filterMap (some ∘ SourceFile.id) := List.filterMap_congr fun a ha => by
      rw [Function.comp_apply, node_ofFiles (List.getElem?_idxOf (hall ha))]
      rfl
    _ = all.map SourceFile.id := congrFun List.filterMap_eq_map all

/-- The targets of a node are the files that the first markers name. -/
theorem targets_idxOf {a : SourceFile} (ha : a ∈ files) :
    (ofFiles files).targets (files.idxOf a) = (firstMarkers a.references).filterMap fun r =>
      (markedFile? files a r).map files.idxOf := by
  rw [targets, links_of_file (List.getElem?_idxOf ha), List.map_filterMap]
  refine List.filterMap_congr fun r _ => Option.ext fun i => ?_
  rw [Option.map_eq_some_iff, Option.map_eq_some_iff]
  constructor
  · rintro ⟨l, hl, rfl⟩
    obtain ⟨b, hb, hne, hpath, rfl⟩ := (link?_idxOf hpaths).mp hl
    exact ⟨b, (markedFile?_eq_some_iff hpaths).mpr ⟨hb, hne, hpath⟩, rfl⟩
  · rintro ⟨b, hmarked, rfl⟩
    obtain ⟨hb, hne, hpath⟩ := (markedFile?_eq_some_iff hpaths).mp hmarked
    exact ⟨⟨files.idxOf b, r.span⟩, (link?_idxOf hpaths).mpr ⟨b, hb, hne, hpath, rfl⟩, rfl⟩

theorem roots_arrange (policy : OrderingPolicy) :
    (ofFiles files).roots policy = (policy.arrange files).map files.idxOf := by
  cases policy with
  | resolution => exact (idxOf_files hpaths).symm
  | path =>
    have hpath : ∀ a ∈ files, ((ofFiles files).nodes[files.idxOf a]?.map Node.path).getD ⟨[]⟩ =
        a.path := by
      intro a ha
      rw [node_ofFiles (List.getElem?_idxOf ha)]
      rfl
    rw [roots, ← idxOf_files hpaths]
    refine (List.map_mergeSort fun a ha b hb => ?_).symm
    simp only [hpath a ha, hpath b hb]

theorem visitAll?_files (depth : Nat) {nodes : List SourceFile} (hnodes : nodes ⊆ files) :
    PostOrder.visitAll? (ofFiles files).targets depth [] (nodes.map files.idxOf) =
      (PostOrder.visitAll? (referred files) depth [] nodes).map (List.map files.idxOf) := by
  refine PostOrder.visitAll?_map (fun a ha b hb => ((mem_referred hpaths ha).mp hb).2.1)
    (fun a ha b _ heq => (List.idxOf_inj ha).mp heq) (fun a ha depth done => ?_)
    (List.nil_subset files) hnodes
  rw [targets_idxOf hpaths ha, referred, List.map_filterMap]
  refine PostOrder.visitAll?_firstMarkers (fun r x hpath => ?_) a.references
  simp only [markedFile?, hpath]

/-- The order of emission is the post-order of the recursion, if no file leads back to itself. -/
theorem order_visitAll? (hacyclic : ¬ Looped files) (policy : OrderingPolicy) {depth : Nat}
    (hdepth : files.length ≤ depth) :
    (PostOrder.visitAll? (referred files) depth [] (policy.arrange files)).map
      (List.map SourceFile.id) = some ((ofFiles files).order policy).files := by
  have hnil : (ofFiles files).cycles = [] := (cycles_eq_nil_iff hpaths).mpr hacyclic
  have hbounded : ∀ i j, (ofFiles files).Edge i j → j < (ofFiles files).size :=
    fun _ _ h => size_ofFiles files ▸ (edge_bounded hpaths h).2
  have hroutes : ∀ i, ¬ Relation.TransGen (ofFiles files).Edge i i :=
    fun i h => hacyclic ((ofFiles_carries hpaths).exists_loop_iff.mp ⟨i, h⟩)
  have hsubset : policy.arrange files ⊆ files := (policy.arrange_perm files).subset
  have hnodes := visitAll?_referencesFirst hbounded hroutes (roots_perm policy)
    ((size_ofFiles files).trans_le hdepth)
  rw [roots_arrange hpaths, visitAll?_files hpaths depth hsubset, Option.map_eq_some_iff] at hnodes
  obtain ⟨all, hall, hindices⟩ := hnodes
  have hfiles : all ⊆ files := PostOrder.visitAll?_subset
    (fun a ha b hb => ((mem_referred hpaths ha).mp hb).2.1) (List.nil_subset files) hsubset hall
  rw [hall, Option.map_some, order_of_acyclic hnil, roots_arrange hpaths, ← hindices,
    idsOf_idxOf hfiles]

end ReferenceGraph

end

namespace Cache

/-- The order of emission of a reachable cache without loops is the post-order of the recursion
from its files in the order of the policy, however deep the recursion may go from the number of
files on. Files that stand behind the files they refer to in the order of the policy keep that
order. -/
theorem order_is_postorder (steps : List CacheStep) (policy : OrderingPolicy) :
    let files := (runSteps steps).files
    let order := ((ReferenceGraph.build (runSteps steps)).order policy).files
    (¬ Looped files → ∀ depth, files.length ≤ depth →
      (PostOrder.visitAll? (referred files) depth [] (policy.arrange files)).map
        (List.map SourceFile.id) = some order) ∧
    ((∀ a b, Refers files a b → [b, a].Sublist (policy.arrange files)) →
      order = (policy.arrange files).map SourceFile.id) := by
  intro files order
  have hpaths : (files.map SourceFile.path).Nodup :=
    (runSteps_sound steps).toWellFormed.nodup_files_path
  refine ⟨fun hacyclic depth hdepth =>
    ReferenceGraph.order_visitAll? hpaths hacyclic policy hdepth, fun hbehind => ?_⟩
  have hperm := policy.arrange_perm files
  have hnodup : (policy.arrange files).Nodup := hperm.nodup_iff.mpr hpaths.of_map
  have hacyclic : ¬ Looped files := by
    rintro ⟨a, hloop⟩
    -- along a loop the places would only fall
    have hstep : ∀ a b, Refers files a b →
        (policy.arrange files).idxOf a > (policy.arrange files).idxOf b :=
      fun a b hab => idxOf_lt_of_sublist (hbehind a b hab) hnodup
    have hfall : Relation.TransGen (fun m n : Nat => m > n) ((policy.arrange files).idxOf a)
        ((policy.arrange files).idxOf a) := hloop.lift (policy.arrange files).idxOf hstep
    rw [Relation.transGen_eq_self] at hfall
    exact Nat.lt_irrefl _ hfall
  have hdepth : files.length ≤ files.length + 2 := Nat.le_add_right _ 2
  have hvisits := ReferenceGraph.order_visitAll? hpaths hacyclic policy hdepth
  have hstay : PostOrder.visitAll? (referred files) (files.length + 2) []
      (policy.arrange files) = some (policy.arrange files) := by
    refine PostOrder.visitAll?_of_behind hnodup (fun before a after hsplit b hb => ?_)
      (Nat.le_add_left 2 _)
    have ha : a ∈ files := hperm.mem_iff.mp (hsplit ▸ List.mem_append_right _ List.mem_cons_self)
    have hab : Refers files a b := (mem_referred hpaths ha).mp hb
    exact mem_of_sublist (hsplit ▸ hnodup) (hsplit ▸ hbehind a b hab)
  rw [hstay] at hvisits
  exact (Option.some.inj hvisits).symm

/-- Three files, each of which refers to the next one, and the first also to itself. -/
def layers : List CacheStep :=
  [.upsert "/p/c" "///<reference path='c'/>\n///<reference path='b'/>".toList,
    .upsert "/p/b" "///<reference path='a'/>".toList,
    .upsert "/p/a" []]

/-- Staged behind the files that refer to them, files are emitted in the order of the recursion.
Staged before those, they keep their order. -/
theorem order_is_postorder_of_layers :
    let top := layers ++ [.reset]
    let bottom := layers.reverse ++ [.reset]
    let order (steps : List CacheStep) :=
      ((ReferenceGraph.build (runSteps steps)).order .resolution).files
    ¬ Looped (runSteps top).files ∧ order top = [2, 1, 0] ∧
    (PostOrder.visitAll? (referred (runSteps top).files) 3 [] (runSteps top).files).map
      (List.map SourceFile.id) = some (order top) ∧
    (∀ a b, Refers (runSteps bottom).files a b → [b, a].Sublist (runSteps bottom).files) ∧
    order bottom = (runSteps bottom).files.map SourceFile.id := by
  intro top bottom order
  have hpaths : ∀ steps, ((runSteps steps).files.map SourceFile.path).Nodup := fun steps =>
    (runSteps_sound steps).nodup_files_path
  have hacyclic : ¬ Looped (runSteps top).files := by
    rw [← ReferenceGraph.cycles_eq_nil_iff (hpaths top)]
    decide +kernel
  have hbehind : ∀ a b, Refers (runSteps bottom).files a b →
      [b, a].Sublist (runSteps bottom).files := by
    have hall : ∀ a ∈ (runSteps bottom).files, ∀ b ∈ referred (runSteps bottom).files a,
        [b, a].Sublist (runSteps bottom).files := by decide +kernel
    exact fun a b hab => hall a hab.1 b ((mem_referred (hpaths bottom) hab.1).mpr hab)
  exact ⟨hacyclic, by decide +kernel,
    (order_is_postorder top .resolution).1 hacyclic 3 (by decide +kernel), hbehind,
    (order_is_postorder bottom .resolution).2 hbehind⟩

end Cache

end IncrementalBuild
