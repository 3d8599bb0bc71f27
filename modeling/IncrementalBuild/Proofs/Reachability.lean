import IncrementalBuild.Proofs.Components
import IncrementalBuild.Reference.Circle
import Mathlib.Data.List.GetD
import Mathlib.Data.List.Sort
/-!
# Routes and components

A node leads to another if a route of references goes there. The sets that `reach` computes say
exactly which nodes a node leads to, and so `tangles` has exactly the components of at least two
nodes. What is stated besides: any list of all components gives the same tangles once the small
ones are left out and the others are sorted, so an order of components is no part of the result.
-/
namespace IncrementalBuild.ReferenceGraph

/-- A reference from a node to another. -/
def Edge (g : ReferenceGraph) (i j : Nat) : Prop := j ∈ g.targets i

/-- A route of references, with any number of steps. -/
def Leads (g : ReferenceGraph) : Nat → Nat → Prop := Relation.ReflTransGen g.Edge

/-- Whether the set of the node `i` has the node `j`. -/
def reaches (sets : List NodeSet) (i j : Nat) : Bool := (sets.getD i .empty).contains j

/-! ## Routes through pivots -/

theorem reaches_through (sets : List NodeSet) (k i j : Nat) :
    reaches (through sets k) i j =
      (reaches sets i j || (reaches sets i k && reaches sets k j)) := by
  have hset : (through sets k).getD i .empty =
      if (sets.getD i .empty).contains k then (sets.getD i .empty).union (sets.getD k .empty)
      else sets.getD i .empty := by
    -- the set of a node that does not exist is empty before and after
    have hmap := sets.getD_map NodeSet.empty (n := i)
      fun s => if s.contains k then s.union (sets.getD k .empty) else s
    rwa [NodeSet.contains_empty] at hmap
  unfold reaches
  rw [hset]
  cases hk : (sets.getD i .empty).contains k <;> simp

variable {g : ReferenceGraph}

theorem Edge.lt_size {i j : Nat} (h : g.Edge i j) : i < g.size := by
  by_contra hi
  have hnone : g.nodes[i]? = none := List.getElem?_eq_none (Nat.le_of_not_lt hi)
  simp [Edge, targets, links, hnone] at h

theorem reaches_direct {i j : Nat} :
    reaches g.direct i j ↔ i < g.size ∧ (j = i ∨ g.Edge i j) := by
  unfold reaches direct Edge targets links size
  rw [List.getD_eq_getElem?_getD, List.getElem?_map, List.getElem?_zipIdx]
  by_cases hi : i < g.nodes.length
  · simp [hi]
  · simp [hi]

/-- What sets of nodes say once routes may pass through the pivots: nothing but routes, every
reference, and every route that two shorter ones make at a pivot. -/
structure Pivots (g : ReferenceGraph) (pivots : List Nat) (sets : List NodeSet) : Prop where
  sound : ∀ i j, reaches sets i j → g.Leads i j
  base : ∀ i j, reaches g.direct i j → reaches sets i j
  joined : ∀ k ∈ pivots, ∀ i j, reaches sets i k → reaches sets k j → reaches sets i j

theorem direct_pivots : g.Pivots [] g.direct where
  sound i j h := by
    obtain ⟨_, rfl | h⟩ := reaches_direct.mp h
    · exact .refl
    · exact .single h
  base _ _ h := h
  joined _ h := absurd h List.not_mem_nil

theorem Pivots.through {pivots : List Nat} {sets : List NodeSet} (h : g.Pivots pivots sets)
    (k : Nat) : g.Pivots (pivots ++ [k]) (through sets k) where
  sound i j hr := by
    rw [reaches_through, Bool.or_eq_true, Bool.and_eq_true] at hr
    rcases hr with hr | ⟨hik, hkj⟩
    · exact h.sound i j hr
    · exact (h.sound i k hik).trans (h.sound k j hkj)
  base i j hr := by
    rw [reaches_through, h.base i j hr, Bool.true_or]
  joined m hm i j hr hr' := by
    rw [reaches_through, Bool.or_eq_true, Bool.and_eq_true] at hr hr' ⊢
    rcases List.mem_append.mp hm with hm | hm
    -- a route from `i` to `m` or from `m` to `j` that passes through `k` reaches `k` first
    · rcases hr with hr | ⟨hik, hkm⟩
      · rcases hr' with hr' | ⟨hmk, hkj⟩
        · exact Or.inl (h.joined m hm i j hr hr')
        · exact Or.inr ⟨h.joined m hm i k hr hmk, hkj⟩
      · rcases hr' with hr' | ⟨_, hkj⟩
        · exact Or.inr ⟨hik, h.joined m hm k j hkm hr'⟩
        · exact Or.inr ⟨hik, hkj⟩
    · rw [List.mem_singleton.mp hm] at hr hr'
      exact Or.inr ⟨hr.elim id And.left, hr'.elim id And.right⟩

theorem reach_pivots : g.Pivots (List.range g.size) g.reach := by
  have hfold : ∀ n : Nat,
      g.Pivots (List.range n) ((List.range n).foldl ReferenceGraph.through g.direct) := by
    intro n
    induction n with
    | zero => exact direct_pivots
    | succ n ih =>
      rw [List.range_succ, List.foldl_append]
      exact ih.through n
  exact hfold g.size

/-- The computed sets say exactly where a node leads. -/
theorem reach_iff {i j : Nat} (hi : i < g.size) : reaches g.reach i j ↔ g.Leads i j := by
  constructor
  · exact reach_pivots.sound i j
  · intro h
    induction h with
    | refl => exact reach_pivots.base i i (reaches_direct.mpr ⟨hi, Or.inl rfl⟩)
    | @tail k j _ hkj ih =>
      have hk : k < g.size := Edge.lt_size hkj
      exact reach_pivots.joined k (List.mem_range.mpr hk) i j ih
        (reach_pivots.base k j (reaches_direct.mpr ⟨hk, Or.inr hkj⟩))

/-! ## Components -/

theorem lt_size_of_connected {i j : Nat} (hi : i < g.size) (h : Connected g.Edge i j) :
    j < g.size := by
  obtain rfl | ⟨k, hjk, _⟩ := h.2.cases_head
  · exact hi
  · exact Edge.lt_size hjk

/-- The nodes that are connected with a node, in order. -/
def component (g : ReferenceGraph) (i : Nat) : List Nat :=
  (List.range g.size).filter fun j => reaches g.reach i j && reaches g.reach j i

theorem mem_component {i j : Nat} (hi : i < g.size) : j ∈ g.component i ↔ Connected g.Edge i j := by
  unfold component
  rw [List.mem_filter, List.mem_range, Bool.and_eq_true, reach_iff hi]
  constructor
  · rintro ⟨hj, hij, hji⟩
    exact ⟨hij, (reach_iff hj).mp hji⟩
  · intro h
    have hj := lt_size_of_connected hi h
    exact ⟨hj, h.1, (reach_iff hj).mpr h.2⟩

theorem component_sublist (i : Nat) : (g.component i).Sublist (List.range g.size) :=
  List.filter_sublist

theorem component_congr {i j : Nat} (hi : i < g.size) (h : Connected g.Edge i j) :
    g.component i = g.component j := by
  apply List.Pairwise.eq_of_mem_iff (List.pairwise_lt_range.sublist (component_sublist i))
    (List.pairwise_lt_range.sublist (component_sublist j))
  intro k
  rw [mem_component hi, mem_component (lt_size_of_connected hi h)]
  exact ⟨h.symm.trans, h.trans⟩

theorem zipIdx_map_range {α : Type} (f : Nat → α) (n : Nat) :
    ((List.range n).map f).zipIdx = (List.range n).map fun i => (f i, i) := by
  apply List.ext_getElem <;> simp

theorem reach_eq : g.reach = (List.range g.size).map fun i => g.reach.getD i .empty := by
  have hlength : g.reach.length = g.size := by
    have hfold : ∀ (pivots : List Nat) (sets : List NodeSet),
        (pivots.foldl ReferenceGraph.through sets).length = sets.length := by
      intro pivots
      induction pivots with
      | nil => exact fun _ => rfl
      | cons k pivots ih => exact fun sets => (ih _).trans (List.length_map _)
    rw [reach, hfold, direct, List.length_map, List.length_zipIdx, size]
  apply List.ext_getElem
  · simp [hlength]
  · intro i hi _
    simp [List.getD_eq_getElem?_getD, List.getElem?_eq_getElem hi]

theorem components_eq : g.components = (List.range g.size).map g.component := by
  have hzip : g.reach.zipIdx =
      (List.range g.size).map fun i => (g.reach.getD i .empty, i) := by
    conv_lhs => rw [reach_eq, zipIdx_map_range]
  simp only [components, hzip, List.map_map, List.filter_map]
  apply List.map_congr_left
  intro i _
  simp only [Function.comp_def, List.map_id']
  rfl

/-- The nodes that come first in their components. -/
def firsts (g : ReferenceGraph) : List Nat :=
  (List.range g.size).filter fun i => (g.component i).head? == some i

theorem mem_firsts {i : Nat} : i ∈ g.firsts ↔ i < g.size ∧ (g.component i).head? = some i := by
  rw [firsts, List.mem_filter, List.mem_range, beq_iff_eq]

theorem exists_first {k : Nat} (hk : k < g.size) :
    ∃ i ∈ g.firsts, g.component k = g.component i := by
  have hself : k ∈ g.component k := (mem_component hk).mpr (.refl k)
  obtain ⟨i, rest, hcons⟩ := List.exists_cons_of_ne_nil (List.ne_nil_of_mem hself)
  have hki : Connected g.Edge k i := (mem_component hk).mp (hcons ▸ List.mem_cons_self)
  have heq : g.component k = g.component i := component_congr hk hki
  refine ⟨i, mem_firsts.mpr ⟨lt_size_of_connected hk hki, ?_⟩, heq⟩
  rw [← heq, hcons, List.head?_cons]

theorem eq_of_component_eq {i j : Nat} (hi : i ∈ g.firsts) (hj : j ∈ g.firsts)
    (h : g.component i = g.component j) : i = j :=
  Option.some.inj ((mem_firsts.mp hi).2.symm.trans (h ▸ (mem_firsts.mp hj).2))

theorem tangles_eq :
    g.tangles = (g.firsts.filter fun i => 1 < (g.component i).length).map g.component := by
  unfold tangles firsts
  rw [components_eq, zipIdx_map_range, List.filter_map, List.map_map, List.filter_filter]
  simp only [Function.comp_def, Bool.and_comm]

/-! ## Tangles -/

section
variable {c : List Nat} (h : IsTangle g.Edge (List.range g.size) c)
include h

theorem lt_size_of_tangle {i : Nat} (hi : i ∈ c) : i < g.size :=
  List.mem_range.mp (h.sorted.subset hi)

theorem tangle_eq_component {i : Nat} (hi : i ∈ c) : c = g.component i := by
  apply List.Pairwise.eq_of_mem_iff (List.pairwise_lt_range.sublist h.sorted)
    (List.pairwise_lt_range.sublist (component_sublist i))
  intro j
  rw [h.whole i hi j, mem_component (lt_size_of_tangle h hi)]

end

theorem component_whole {i : Nat} (hi : i < g.size) {j : Nat} (hj : j ∈ g.component i) (k : Nat) :
    k ∈ g.component i ↔ Connected g.Edge j k := by
  have hij : Connected g.Edge i j := (mem_component hi).mp hj
  rw [component_congr hi hij, mem_component (lt_size_of_connected hi hij)]

theorem isTangle_component {i : Nat} (hi : i < g.size) (hlen : 1 < (g.component i).length) :
    IsTangle g.Edge (List.range g.size) (g.component i) where
  sorted := component_sublist i
  several := hlen
  whole _ hj := component_whole hi hj

theorem mem_tangles {c : List Nat} : c ∈ g.tangles ↔ IsTangle g.Edge (List.range g.size) c := by
  rw [tangles_eq, List.mem_map]
  simp only [List.mem_filter, decide_eq_true_eq]
  constructor
  · rintro ⟨i, ⟨hi, hlen⟩, rfl⟩
    exact isTangle_component (mem_firsts.mp hi).1 hlen
  · intro h
    obtain ⟨k, rest, rfl⟩ := h.exists_cons
    have heq := tangle_eq_component h List.mem_cons_self
    obtain ⟨i, hi, hki⟩ := exists_first (lt_size_of_tangle h List.mem_cons_self)
    rw [heq, hki] at h ⊢
    exact ⟨i, ⟨hi, h.several⟩, rfl⟩

theorem tangles_heads : (g.tangles.map (·.headD 0)).Sublist (List.range g.size) := by
  have hhead : ∀ i ∈ g.firsts.filter fun i => 1 < (g.component i).length,
      ((·.headD 0) ∘ g.component) i = id i := by
    intro i hi
    have hfirst := (mem_firsts.mp (List.mem_filter.mp hi).1).2
    rw [Function.comp_apply, List.headD_eq_head?_getD, hfirst, Option.getD_some, id]
  rw [tangles_eq, List.map_map, List.map_congr_left hhead, List.map_id]
  exact List.filter_sublist.trans List.filter_sublist

theorem tangles_sorted : g.tangles.Pairwise fun c d => c.headD 0 < d.headD 0 :=
  List.pairwise_map.mp (List.pairwise_lt_range.sublist tangles_heads)

theorem tangles_nodup : g.tangles.Nodup := by
  apply tangles_sorted.imp
  intro c d hlt heq
  exact Nat.lt_irrefl _ (heq ▸ hlt)

/-- There are tangles if and only if some route leads back to where it starts. -/
theorem tangles_eq_nil_iff (hself : ∀ i, ¬ g.Edge i i) :
    g.tangles = [] ↔ ∀ i, ¬ Relation.TransGen g.Edge i i := by
  constructor
  · intro hnil i hloop
    -- the loop leaves `i` for another node, which is connected with `i`
    obtain ⟨j, hij, hji⟩ := Relation.TransGen.head'_iff.mp hloop
    have hi : i < g.size := Edge.lt_size hij
    have hne : i ≠ j := fun h => hself i (h ▸ hij)
    have hcomp : [i, j] ⊆ g.component i := by
      intro k hk
      rw [mem_component hi]
      rcases List.mem_pair.mp hk with rfl | rfl
      · exact .refl k
      · exact ⟨.single hij, hji⟩
    have hnodup : [i, j].Nodup := by simpa using hne
    have hlen : 2 ≤ (g.component i).length := (List.subperm_of_subset hnodup hcomp).length_le
    exact List.not_mem_nil (hnil ▸ mem_tangles.mpr (isTangle_component hi hlen))
  · intro hacyclic
    apply List.eq_nil_iff_forall_not_mem.mpr
    intro c hc
    have h := mem_tangles.mp hc
    obtain ⟨i, rest, rfl⟩ := h.exists_cons
    obtain ⟨j, hj, hij⟩ := h.exists_step List.nodup_range List.mem_cons_self
    have hji := ((h.whole i List.mem_cons_self j).mp hj).2
    exact hacyclic i (.head' hij hji)

/-! ## Components in any order -/

/-- A list of all components, where neither the components nor their nodes stand in any order. -/
structure Partition (g : ReferenceGraph) (parts : List (List Nat)) : Prop where
  once : parts.flatten.Perm (List.range g.size)
  whole : ∀ c ∈ parts, ∀ i ∈ c, ∀ j, j ∈ c ↔ Connected g.Edge i j

theorem exists_partition (g : ReferenceGraph) : ∃ parts, g.Partition parts := by
  have honce : (g.firsts.map g.component).flatten.Nodup := by
    refine List.nodup_flatten.mpr ⟨fun c hc => ?_, List.pairwise_map.mpr ?_⟩
    · obtain ⟨i, _, rfl⟩ := List.mem_map.mp hc
      exact List.nodup_range.sublist (component_sublist i)
    · -- components that share a node are equal, and so are their first nodes
      refine (List.nodup_range.filter _).imp_of_mem ?_
      intro i j hi hj hne k hki hkj
      have hik := component_congr (mem_firsts.mp hi).1 ((mem_component (mem_firsts.mp hi).1).mp hki)
      have hjk := component_congr (mem_firsts.mp hj).1 ((mem_component (mem_firsts.mp hj).1).mp hkj)
      exact hne (eq_of_component_eq hi hj (hik.trans hjk.symm))
  have hevery : ∀ k, k ∈ (g.firsts.map g.component).flatten ↔ k ∈ List.range g.size := by
    intro k
    rw [List.mem_flatten]
    constructor
    · rintro ⟨c, hc, hk⟩
      obtain ⟨i, _, rfl⟩ := List.mem_map.mp hc
      exact (component_sublist i).subset hk
    · intro hk
      have hlt : k < g.size := List.mem_range.mp hk
      obtain ⟨i, hi, heq⟩ := exists_first hlt
      exact ⟨g.component i, List.mem_map_of_mem hi, heq ▸ (mem_component hlt).mpr (.refl k)⟩
  refine ⟨g.firsts.map g.component,
    (List.perm_ext_iff_of_nodup honce List.nodup_range).mpr hevery, fun c hc j hj => ?_⟩
  obtain ⟨i, hi, rfl⟩ := List.mem_map.mp hc
  exact component_whole (mem_firsts.mp hi).1 hj

/-- Components of at least two nodes, sorted, in the order of their first nodes. -/
def arrange (parts : List (List Nat)) : List (List Nat) :=
  ((parts.filter (1 < ·.length)).map (·.mergeSort)).mergeSort fun c d => c.headD 0 ≤ d.headD 0

theorem sort_eq {c : List Nat} (hc : c.Nodup) (d : List Nat) (hd : d.Pairwise (· < ·))
    (hmem : ∀ i, i ∈ c ↔ i ∈ d) : c.mergeSort = d := by
  have hperm : c.mergeSort.Perm d := (c.mergeSort_perm _).trans
    ((List.perm_ext_iff_of_nodup hc (hd.imp Nat.ne_of_lt)).mpr hmem)
  exact hperm.eq_of_pairwise' (c.pairwise_mergeSort' (· ≤ ·)) (hd.imp Nat.le_of_lt)

theorem Partition.nodup {parts : List (List Nat)} (h : g.Partition parts) :
    (∀ c ∈ parts, c.Nodup) ∧ parts.Pairwise List.Disjoint :=
  List.nodup_flatten.mp (h.once.nodup_iff.mpr List.nodup_range)

theorem Partition.lt_size {parts : List (List Nat)} (h : g.Partition parts) {c : List Nat}
    (hc : c ∈ parts) {i : Nat} (hi : i ∈ c) : i < g.size :=
  List.mem_range.mp (h.once.mem_iff.mp (List.mem_flatten.mpr ⟨c, hc, hi⟩))

theorem Partition.sort_eq {parts : List (List Nat)} (h : g.Partition parts) {c : List Nat}
    (hc : c ∈ parts) {i : Nat} (hi : i ∈ c) : c.mergeSort = g.component i := by
  have hlt : i < g.size := h.lt_size hc hi
  apply ReferenceGraph.sort_eq (h.nodup.1 c hc) _
    (List.pairwise_lt_range.sublist (component_sublist i))
  intro j
  rw [h.whole c hc i hi j, mem_component hlt]

theorem Partition.mem_sorted {parts : List (List Nat)} (h : g.Partition parts) {c : List Nat} :
    c ∈ (parts.filter (1 < ·.length)).map (·.mergeSort) ↔
      IsTangle g.Edge (List.range g.size) c := by
  simp only [List.mem_map, List.mem_filter, decide_eq_true_eq]
  constructor
  · rintro ⟨d, ⟨hd, hlen⟩, rfl⟩
    obtain ⟨i, hi⟩ := List.exists_mem_of_length_pos (Nat.lt_of_succ_lt hlen)
    have hlt : i < g.size := h.lt_size hd hi
    have heq : d.mergeSort = g.component i := h.sort_eq hd hi
    rw [heq]
    apply isTangle_component hlt
    rw [← heq, List.length_mergeSort]
    exact hlen
  · intro hc
    obtain ⟨i, hi⟩ := List.exists_mem_of_length_pos (Nat.lt_of_succ_lt hc.several)
    obtain ⟨d, hd, hid⟩ := List.mem_flatten.mp
      (h.once.mem_iff.mpr (List.mem_range.mpr (lt_size_of_tangle hc hi)))
    have heq : d.mergeSort = c := (h.sort_eq hd hid).trans (tangle_eq_component hc hi).symm
    refine ⟨d, ⟨hd, ?_⟩, heq⟩
    have hlen : d.length = c.length := by rw [← heq, List.length_mergeSort]
    exact hlen ▸ hc.several

theorem Partition.nodup_sorted {parts : List (List Nat)} (h : g.Partition parts) :
    ((parts.filter (1 < ·.length)).map (·.mergeSort)).Nodup := by
  apply List.pairwise_map.mpr
  apply (h.nodup.2.sublist List.filter_sublist).imp_of_mem
  intro c d hc _ hdisjoint heq
  have hlen : 1 < c.length := by simpa using (List.mem_filter.mp hc).2
  obtain ⟨i, hi⟩ := List.exists_mem_of_length_pos (Nat.lt_of_succ_lt hlen)
  have hperm : c.Perm d := (c.mergeSort_perm _).symm.trans (heq ▸ d.mergeSort_perm _)
  exact hdisjoint hi (hperm.mem_iff.mp hi)

theorem arrange_sorted (parts : List (List Nat)) :
    (arrange parts).Pairwise fun c d => c.headD 0 ≤ d.headD 0 := by
  have hsorted := @List.pairwise_mergeSort _ (fun c d : List Nat => c.headD 0 ≤ d.headD 0)
    (fun _ _ _ h h' => decide_eq_true (Nat.le_trans (of_decide_eq_true h) (of_decide_eq_true h')))
    (fun c d => by simpa using Nat.le_total (c.headD 0) (d.headD 0))
    ((parts.filter (1 < ·.length)).map (·.mergeSort))
  exact hsorted.imp of_decide_eq_true

/-- Whatever order the components come in, arranging them gives the tangles. -/
theorem Partition.arrange_eq {parts : List (List Nat)} (h : g.Partition parts) :
    arrange parts = g.tangles := by
  have hperm : (arrange parts).Perm g.tangles := by
    refine (List.mergeSort_perm _ _).trans ?_
    apply (List.perm_ext_iff_of_nodup h.nodup_sorted tangles_nodup).mpr
    intro c
    rw [h.mem_sorted, mem_tangles]
  refine hperm.eq_of_pairwise ?_ (arrange_sorted parts) (tangles_sorted.imp Nat.le_of_lt)
  -- tangles with the same first node are the same component
  intro c d hc hd hcd hdc
  have hc : IsTangle g.Edge (List.range g.size) c := mem_tangles.mp (hperm.mem_iff.mp hc)
  have hd : IsTangle g.Edge (List.range g.size) d := mem_tangles.mp hd
  obtain ⟨i, c, rfl⟩ := hc.exists_cons
  obtain ⟨j, d, rfl⟩ := hd.exists_cons
  have hij : i = j := Nat.le_antisymm hcd hdc
  rw [tangle_eq_component hc List.mem_cons_self, tangle_eq_component hd List.mem_cons_self, hij]

end IncrementalBuild.ReferenceGraph
