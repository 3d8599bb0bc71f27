import IncrementalBuild.Proofs.CycleReports
import Mathlib.Data.List.Chain
import Mathlib.Logic.Relator
/-!
# The walks of reported cycles

A report shows a walk inside its tangle. The walk starts at the first file, and from each file it
takes the first reference to another file of the tangle, until it comes to a file that it has left
before. So it always ends in a circle, and the circle leads through the start exactly if first
references alone lead from the start back to it.
-/
namespace IncrementalBuild

/-! ## Walks along a relation -/

section
variable {α : Type} {r : α → α → Prop} {left visited : List α} {a b back : α}

/-- A walk from `a` that visits elements it has not left before, and then comes to `back`, which
it has. -/
structure Winding (r : α → α → Prop) (left : List α) (a : α) (visited : List α) (back : α) :
    Prop where
  start : (visited ++ [back]).head? = some a
  chain : (visited ++ [back]).IsChain r
  once : (visited ++ left).Nodup
  returns : back ∈ visited ++ left

namespace Winding

theorem stop (hleft : left.Nodup) (ha : a ∈ left) : Winding r left a [] a :=
  ⟨rfl, .singleton a, hleft, ha⟩

theorem cons (hab : r a b) (h : Winding r (a :: left) b visited back) :
    Winding r left a (a :: visited) back where
  start := rfl
  chain := by
    refine List.isChain_cons.mpr ⟨fun x hx => ?_, h.chain⟩
    exact Option.some.inj (h.start.symm.trans hx) ▸ hab
  once := List.perm_middle.nodup_iff.mp h.once
  returns := List.perm_middle.mem_iff.mp h.returns

/-- From each element that is visited the walk goes on to one that is visited, or comes back. -/
theorem exists_next (h : Winding r left a visited back) {before after : List α}
    (hvisited : visited = before ++ after) {x : α} (hx : x ∈ after) :
    ∃ y ∈ after ++ [back], r x y := by
  obtain ⟨nearer, further, rfl⟩ := List.append_of_mem hx
  have hchain := h.chain
  rw [hvisited, List.append_assoc, List.append_assoc, List.cons_append] at hchain
  have htail : (x :: (further ++ [back])).IsChain r := hchain.right_of_append.right_of_append
  obtain ⟨y, rest, hrest⟩ := List.exists_cons_of_ne_nil (l := further ++ [back]) (by simp)
  have hxy : r x y := (List.isChain_cons.mp htail).1 y (by simp [hrest])
  have hy : y ∈ further ++ [back] := hrest ▸ List.mem_cons_self
  exact ⟨y, by simp only [List.mem_append, List.mem_cons] at hy ⊢; tauto, hxy⟩

theorem back_mem (h : Winding r [] a visited back) : back ∈ visited := by
  simpa using h.returns

theorem head_visited (h : Winding r [] a visited back) : visited.head? = some a := by
  have hstart := h.start
  rwa [List.head?_append_of_ne_nil _ (List.ne_nil_of_mem h.back_mem)] at hstart

end Winding

/-- If an element leads back to itself, then so does everything it leads to. -/
theorem leads_back (hr : Relator.RightUnique r) (hloop : Relation.TransGen r a a)
    (hab : Relation.ReflTransGen r a b) : Relation.ReflTransGen r b a := by
  induction hab with
  | refl => exact .refl
  | @tail b' c _ hstep ih =>
    -- the one step that leaves an element stands first in every route from there
    have hback : Relation.TransGen r b' a := by
      obtain rfl | htrans := Relation.reflTransGen_iff_eq_or_transGen.mp ih
      · exact hloop
      · exact htrans
    obtain ⟨c', hstep', hback⟩ := Relation.TransGen.head'_iff.mp hback
    exact hr hstep hstep' ▸ hback

/-- What the walk comes back to leads only to what it visits from there on. -/
theorem Winding.mem_circle (hr : Relator.RightUnique r) {before after : List α}
    (h : Winding r left a (before ++ back :: after) back) {x : α}
    (hx : Relation.ReflTransGen r back x) : x ∈ back :: after := by
  induction hx with
  | refl => exact List.mem_cons_self
  | tail _ hstep ih =>
    obtain ⟨y, hy, hnext⟩ := h.exists_next rfl ih
    obtain rfl := hr hstep hnext
    rcases List.mem_append.mp hy with hy | hy
    · exact hy
    · exact List.mem_singleton.mp hy ▸ List.mem_cons_self

/-- Without elements left before, the walk comes back to its start exactly if the start leads back
to itself. -/
theorem Winding.closed_iff (hr : Relator.RightUnique r) (h : Winding r [] a visited back) :
    back = a ↔ Relation.TransGen r a a := by
  obtain ⟨before, after, rfl⟩ := List.append_of_mem h.back_mem
  have htrans : ((before ++ back :: after) ++ [back]).Pairwise (Relation.TransGen r) :=
    (h.chain.imp fun _ _ => Relation.TransGen.single).pairwise
  have hout : ∀ x ∈ before ++ back :: after, Relation.TransGen r x back := fun x hx =>
    (List.pairwise_append.mp htrans).2.2 x hx back List.mem_cons_self
  have hstart := h.head_visited
  constructor
  · rintro rfl
    exact hout back (List.mem_append_right _ List.mem_cons_self)
  · intro hself
    cases before with
    | nil => exact Option.some.inj hstart
    | cons a' before =>
      -- the start would be visited again in the circle that the walk ends in
      obtain rfl : a' = a := Option.some.inj hstart
      have hback : Relation.TransGen r a' back := hout a' List.mem_cons_self
      have hcircle : a' ∈ back :: after :=
        h.mem_circle hr (leads_back hr hself hback.to_reflTransGen)
      have honce := h.once
      rw [List.append_nil, List.cons_append, List.nodup_cons] at honce
      exact absurd (List.mem_append_right before hcircle) honce.1

end

/-! ## Walks between files -/

/-- The first step from a file inside a component. -/
def firstStep (component : List SourceFile) (a : SourceFile) : CycleStep :=
  (stepsWithin component a).headD ⟨a.path, Span.dummy, a.path⟩

/-- The first step from a file of a component leads to another one. -/
structure StepsTo (component : List SourceFile) (a b : SourceFile) : Prop where
  source : a ∈ component
  target : b ∈ component
  step : firstStep component a ∈ stepsWithin component a
  path : (firstStep component a).target = b.path

/-- What a walk is that a report shows of a component. -/
structure ReferenceCycle.Winds (component : List SourceFile) (members : List CycleStep) :
    Prop where
  start : members.head?.map CycleStep.path = component.head?.map SourceFile.path
  nonempty : members ≠ []
  chain : members.IsChain fun s t => s.target = t.path
  once : (members.map CycleStep.path).Nodup
  real : ∀ s ∈ members, ∃ a ∈ component, ∃ b ∈ component, a ≠ b ∧
    ∃ r, a.references.find? (·.path = b.path) = some r ∧ s = ⟨a.path, r.span, b.path⟩
  circle : ∃ lead circle, members = lead ++ circle ∧ circle ≠ [] ∧
    circle.getLast?.map CycleStep.target = circle.head?.map CycleStep.path
  closed_iff : members.getLast?.map CycleStep.target = members.head?.map CycleStep.path ↔
    ∃ a, component.head? = some a ∧ Relation.TransGen (StepsTo component) a a

theorem firstStep_mem {component : List SourceFile} {a : SourceFile}
    (h : stepsWithin component a ≠ []) : firstStep component a ∈ stepsWithin component a := by
  obtain ⟨s, rest, hs⟩ := List.exists_cons_of_ne_nil h
  rw [firstStep, hs]
  exact List.mem_cons_self

theorem firstStep_path (component : List SourceFile) (a : SourceFile) :
    (firstStep component a).path = a.path := by
  by_cases h : stepsWithin component a = []
  · rw [firstStep, h]
    rfl
  · obtain ⟨_, _, _, _, _, heq⟩ := mem_stepsWithin.mp (firstStep_mem h)
    rw [heq]

/-- In a tangle every file has a step to another file of it. -/
theorem IsTangle.stepsWithin_ne_nil {files component : List SourceFile}
    (h : IsTangle (Refers files) files component) (hall : files.Nodup) {a : SourceFile}
    (ha : a ∈ component) : stepsWithin component a ≠ [] := by
  obtain ⟨b, hb, hrefers⟩ := h.exists_step hall ha
  obtain ⟨first, hfirst⟩ := hrefers.exists_first
  exact List.ne_nil_of_mem (mem_stepsWithin.mpr ⟨b, hb, hrefers.2.2.1, first, hfirst, rfl⟩)

theorem stepsTo_rightUnique {component : List SourceFile}
    (hpaths : (component.map SourceFile.path).Nodup) :
    Relator.RightUnique (StepsTo component) := fun _ _ _ h h' =>
  List.inj_on_of_nodup_map hpaths h.target h'.target (h.path.symm.trans h'.path)

theorem map_firstStep_path (component visited : List SourceFile) :
    (visited.map (firstStep component)).map CycleStep.path = visited.map SourceFile.path := by
  rw [List.map_map]
  exact List.map_congr_left fun x _ => firstStep_path component x

namespace Winding

variable {component visited : List SourceFile} {a back : SourceFile}
  (h : Winding (StepsTo component) [] a visited back)
include h

theorem exists_stepsTo {x : SourceFile} (hx : x ∈ visited) : ∃ y, StepsTo component x y := by
  obtain ⟨y, _, hxy⟩ := h.exists_next (List.nil_append _).symm hx
  exact ⟨y, hxy⟩

theorem visited_subset : visited ⊆ component := by
  intro x hx
  obtain ⟨y, hxy⟩ := h.exists_stepsTo hx
  exact hxy.source

/-- The last step leads to the file that the walk comes back to. -/
theorem last_target {before after : List SourceFile} (hvisited : visited = before ++ after)
    (hne : after ≠ []) :
    (after.map (firstStep component)).getLast?.map CycleStep.target = some back.path := by
  obtain ⟨front, x, rfl⟩ : ∃ front x, after = front ++ [x] :=
    ⟨_, _, (List.dropLast_append_getLast hne).symm⟩
  have hchain := h.chain
  rw [hvisited, List.append_assoc, List.append_assoc] at hchain
  have hstep : StepsTo component x back :=
    (List.isChain_cons.mp hchain.right_of_append.right_of_append).1 back rfl
  simp [hstep.path]

/-- The steps of a walk from the first file of a component, until it comes back. -/
theorem winds (hhead : component.head? = some a)
    (hpaths : (component.map SourceFile.path).Nodup) :
    ReferenceCycle.Winds component (visited.map (firstStep component)) where
  start := by
    rw [← List.head?_map, map_firstStep_path, List.head?_map, h.head_visited, hhead]
  nonempty := mt List.map_eq_nil_iff.mp (List.ne_nil_of_mem h.back_mem)
  chain := by
    rw [List.isChain_map]
    refine h.chain.left_of_append.imp fun x y hxy => ?_
    rw [hxy.path, firstStep_path]
  once := by
    rw [map_firstStep_path]
    have honce : visited.Nodup := by simpa using h.once
    exact honce.map_on fun x hx y hy =>
      List.inj_on_of_nodup_map hpaths (h.visited_subset hx) (h.visited_subset hy)
  real := by
    intro s hs
    obtain ⟨x, hx, rfl⟩ := List.mem_map.mp hs
    obtain ⟨y, hxy⟩ := h.exists_stepsTo hx
    exact ⟨x, h.visited_subset hx, mem_stepsWithin.mp hxy.step⟩
  circle := by
    obtain ⟨before, after, hvisited⟩ := List.append_of_mem h.back_mem
    refine ⟨before.map (firstStep component), (back :: after).map (firstStep component), ?_,
      by simp, ?_⟩
    · rw [hvisited, List.map_append]
    · rw [h.last_target hvisited (by simp), List.map_cons, List.head?_cons, Option.map_some,
        firstStep_path]
  closed_iff := by
    have hback : back ∈ component := h.visited_subset h.back_mem
    have ha : a ∈ component := List.mem_of_mem_head? hhead
    have hsame : back.path = a.path ↔ back = a :=
      ⟨List.inj_on_of_nodup_map hpaths hback ha, congrArg SourceFile.path⟩
    rw [h.last_target (List.nil_append _).symm (List.ne_nil_of_mem h.back_mem), List.head?_map,
      h.head_visited, Option.map_some, Option.map_some, firstStep_path, Option.some.injEq, hsame,
      h.closed_iff (stepsTo_rightUnique hpaths), hhead]
    simp

end Winding

/-! ## Walks in the graph -/

namespace ReferenceGraph

section
variable {files component : List SourceFile} (hpaths : (files.map SourceFile.path).Nodup)
  (hsub : component ⊆ files)
include hpaths hsub

theorem find?_link {a : SourceFile} (ha : a ∈ files) :
    (((ofFiles files).links (files.idxOf a)).find?
      (·.target ∈ component.map files.idxOf)).map ((ofFiles files).step (files.idxOf a)) =
    (stepsWithin component a).head? := by
  rw [← inner_file hpaths hsub ha, List.head?_map, List.head?_filter]

/-- With a bound above the number of files that are left to visit, the walk ends where it comes
back. -/
theorem walk_winding (hsteps : ∀ a ∈ component, stepsWithin component a ≠ []) {bound : Nat}
    {left : List SourceFile} (hleft : left ⊆ component) (honce : left.Nodup)
    (hbound : component.length < bound + left.length) {a : SourceFile} (ha : a ∈ component) :
    ∃ visited back, Winding (StepsTo component) left a visited back ∧
      (ofFiles files).walk (component.map files.idxOf) bound (left.map files.idxOf)
        (files.idxOf a) = visited.map (firstStep component) := by
  induction bound generalizing left a with
  | zero =>
    have := honce.length_le_of_subset hleft
    omega
  | succ bound ih =>
    have hmem : files.idxOf a ∈ left.map files.idxOf ↔ a ∈ left := by
      rw [List.mem_map]
      constructor
      · rintro ⟨x, hx, heq⟩
        exact (List.idxOf_inj (hsub (hleft hx))).mp heq ▸ hx
      · exact fun hx => ⟨a, hx, rfl⟩
    rw [walk]
    by_cases hseen : a ∈ left
    · rw [if_pos (hmem.mpr hseen)]
      exact ⟨[], a, .stop honce hseen, rfl⟩
    · rw [if_neg (mt hmem.mp hseen)]
      obtain ⟨s, rest, hs⟩ := List.exists_cons_of_ne_nil (hsteps a ha)
      have hfind := find?_link hpaths hsub (hsub ha)
      rw [hs, List.head?_cons, Option.map_eq_some_iff] at hfind
      obtain ⟨l, hl, rfl⟩ := hfind
      have hin : l.target ∈ component.map files.idxOf := by simpa using List.find?_some hl
      obtain ⟨b, hb, hidx⟩ := List.mem_map.mp hin
      have hfirst : firstStep component a = (ofFiles files).step (files.idxOf a) l := by
        rw [firstStep, hs, List.headD_cons]
      have hstep : StepsTo component a b := by
        refine ⟨ha, hb, firstStep_mem (hsteps a ha), ?_⟩
        have hlink : l = ⟨files.idxOf b, l.span⟩ := by rw [hidx]
        rw [hfirst, hlink, step_file (hsub ha) (hsub hb)]
      have hleft' : a :: left ⊆ component := List.cons_subset.mpr ⟨ha, hleft⟩
      have hbound' : component.length < bound + (a :: left).length := by
        rw [List.length_cons]
        omega
      obtain ⟨visited, back, hwinding, hwalk⟩ :=
        ih hleft' (List.nodup_cons.mpr ⟨hseen, honce⟩) hbound' hb
      refine ⟨a :: visited, back, hwinding.cons hstep, ?_⟩
      rw [hl]
      dsimp only
      rw [← hidx, List.map_cons, hfirst, ← hwalk, List.map_cons]

end

theorem report_winds {files : List SourceFile} (hpaths : (files.map SourceFile.path).Nodup)
    {component : List SourceFile} (h : IsTangle (Refers files) files component) :
    ReferenceCycle.Winds component
      ((ofFiles files).report (component.map files.idxOf)).members := by
  have hall : files.Nodup := hpaths.of_map
  obtain ⟨a, rest, rfl⟩ := h.exists_cons
  have hbound : (a :: rest).length < (a :: rest).length + 1 + ([] : List SourceFile).length :=
    Nat.lt_succ_self _
  obtain ⟨visited, back, hwinding, hwalk⟩ := walk_winding hpaths h.sorted.subset
    (fun a ha => h.stepsWithin_ne_nil hall ha) (List.nil_subset _) List.nodup_nil hbound
    (List.mem_cons_self (a := a) (l := rest))
  have hmembers : ((ofFiles files).report ((a :: rest).map files.idxOf)).members =
      visited.map (firstStep (a :: rest)) := by
    rw [← hwalk, report, List.length_map]
    rfl
  rw [hmembers]
  exact hwinding.winds rfl (hpaths.sublist (h.sorted.map _))

end ReferenceGraph

namespace Cache

/-- Each cycle that is reported for a reachable cache shows a walk inside a tangle of its files,
along the first references from the first file on. -/
theorem cycles_wind (steps : List CacheStep) :
    ∀ cycle ∈ (ReferenceGraph.build (runSteps steps)).cycles, ∃ component,
      IsTangle (Refers (runSteps steps).files) (runSteps steps).files component ∧
      ReferenceCycle.Winds component cycle.members := by
  have hpaths : ((runSteps steps).files.map SourceFile.path).Nodup :=
    (runSteps_sound steps).toWellFormed.nodup_files_path
  intro cycle hcycle
  rw [ReferenceGraph.cycles_eq, List.mem_map] at hcycle
  obtain ⟨c, hc, rfl⟩ := hcycle
  obtain ⟨component, h, rfl⟩ := ReferenceGraph.exists_fileTangle hpaths hc
  exact ⟨component, h, ReferenceGraph.report_winds hpaths h⟩

/-- Three files of one tangle. The first refers to the second, which refers to the third before it
refers back to the first. -/
def entangled : List CacheStep :=
  [.upsert "/p/a.ts" "/// <reference path=\"b.ts\" />\n".toList,
    .upsert "/p/b.ts"
      "/// <reference path=\"c.ts\" />\n/// <reference path=\"a.ts\" />\n".toList,
    .upsert "/p/c.ts" "/// <reference path=\"b.ts\" />\n".toList,
    .reset]

theorem cycles_wind_of_entangled :
    ∃ cycle ∈ (ReferenceGraph.build (runSteps entangled)).cycles,
      cycle.members.map CycleStep.path = ["/p/a.ts", "/p/b.ts", "/p/c.ts"] ∧
      ∃ component,
        IsTangle (Refers (runSteps entangled).files) (runSteps entangled).files component ∧
        ReferenceCycle.Winds component cycle.members := by
  have hmember : ∃ cycle ∈ (ReferenceGraph.build (runSteps entangled)).cycles,
      cycle.members.map CycleStep.path = ["/p/a.ts", "/p/b.ts", "/p/c.ts"] := by decide +kernel
  obtain ⟨cycle, hcycle, hpaths⟩ := hmember
  exact ⟨cycle, hcycle, hpaths, cycles_wind entangled cycle hcycle⟩

/-- The walk goes round between the second file and the third, and never comes back to the
first. -/
theorem entangled_stays_open :
    ¬ ∀ cycle ∈ (ReferenceGraph.build (runSteps entangled)).cycles,
      cycle.members.getLast?.map CycleStep.target = cycle.members.head?.map CycleStep.path := by
  decide +kernel

end Cache

end IncrementalBuild
