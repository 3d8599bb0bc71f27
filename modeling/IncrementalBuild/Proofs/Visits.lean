import IncrementalBuild.Proofs.Reachability
import IncrementalBuild.Reference.Order
import Mathlib.Algebra.GroupWithZero.Nat
import Mathlib.Algebra.Order.BigOperators.Group.Finset
import Mathlib.Data.List.Chain
/-!
# Visits

A visit goes depth first: an open node is done when all its targets are. What is stated here, for
targets without a route back to where it starts: every step keeps the invariant `Valid`, each step
takes one unit of a finite work, and so visits from all nodes leave no node open and put each node
after its targets.
-/
namespace IncrementalBuild

namespace Visit

variable {targets : Nat → List Nat} {n : Nat} {v : Visit}

/-- The nodes that are open, the innermost first. -/
def opened (v : Visit) : List Nat := v.stack.map Prod.fst

/-- What holds between the steps of a visit of the nodes below `n`. -/
structure Valid (targets : Nat → List Nat) (n : Nat) (v : Visit) : Prop where
  once : (v.opened ++ v.done).Nodup
  seen : ∀ i, i ∈ v.seen ↔ i ∈ v.opened ++ v.done
  bounded : ∀ i ∈ v.seen, i < n
  looked : ∀ e ∈ v.stack, ∀ j ∈ targets e.1, j ∈ v.seen ∨ j ∈ e.2
  ahead : ∀ e ∈ v.stack, ∀ j ∈ e.2, j ∈ targets e.1
  chain : v.opened.IsChain fun inner outer => inner ∈ targets outer
  closed : ∀ i ∈ v.done, ∀ j ∈ targets i, j ∈ v.done
  ordered : v.done.Pairwise fun i j => j ∉ targets i

theorem empty_valid : Valid targets n ⟨[], [], []⟩ where
  once := List.nodup_nil
  seen _ := Iff.rfl
  bounded _ h := absurd h List.not_mem_nil
  looked _ h := absurd h List.not_mem_nil
  ahead _ h := absurd h List.not_mem_nil
  chain := .nil
  closed _ h := absurd h List.not_mem_nil
  ordered := .nil

/-! ## Steps -/

/-- A route of targets with at least one step. -/
def Route (targets : Nat → List Nat) : Nat → Nat → Prop :=
  Relation.TransGen fun i j => j ∈ targets i

/-- Each open node has a route to every node that was opened after it. -/
theorem Valid.route (h : v.Valid targets n) : v.opened.Pairwise fun i j => Route targets j i := by
  have hchain : v.opened.IsChain fun i j => Route targets j i := h.chain.imp fun _ _ => .single
  have : IsTrans Nat fun i j => Route targets j i := ⟨fun _ _ _ hij hjk => hjk.trans hij⟩
  exact hchain.pairwise

/-- A target that the innermost open node has seen is done: if it was still open, it would close a
route. -/
theorem Valid.target_done (h : v.Valid targets n) (hacyclic : ∀ i, ¬ Route targets i i) {i : Nat}
    {rest : List Nat} {outer : List (Nat × List Nat)} (hstack : v.stack = (i, rest) :: outer)
    {j : Nat} (hj : j ∈ targets i) (hseen : j ∈ v.seen) : j ∈ v.done := by
  have hopened : v.opened = i :: outer.map Prod.fst := by rw [opened, hstack, List.map_cons]
  rw [h.seen, hopened, List.cons_append, List.mem_cons, List.mem_append] at hseen
  rcases hseen with rfl | hopen | hdone
  · exact absurd (.single hj) (hacyclic j)
  · have hroute : Route targets j i := (List.pairwise_cons.mp (hopened ▸ h.route)).1 j hopen
    exact absurd (hroute.tail hj) (hacyclic j)
  · exact hdone

/-- The targets of a node that has looked at all of them are done. -/
theorem Valid.targets_done (h : v.Valid targets n) (hacyclic : ∀ i, ¬ Route targets i i) {i : Nat}
    {outer : List (Nat × List Nat)} (hstack : v.stack = (i, []) :: outer) {j : Nat}
    (hj : j ∈ targets i) : j ∈ v.done := by
  have hseen : j ∈ v.seen := (h.looked (i, []) (by simp [hstack]) j hj).elim id (by simp)
  exact h.target_done hacyclic hstack hj hseen

theorem Valid.finish (h : v.Valid targets n) (hacyclic : ∀ i, ¬ Route targets i i) {i : Nat}
    {outer : List (Nat × List Nat)} (hstack : v.stack = (i, []) :: outer) :
    Valid targets n { v with stack := outer, done := v.done ++ [i] } := by
  have hopened : v.opened = i :: outer.map Prod.fst := by rw [opened, hstack, List.map_cons]
  have hperm : (outer.map Prod.fst ++ (v.done ++ [i])).Perm (v.opened ++ v.done) := by
    rw [hopened, ← List.append_assoc]
    exact List.perm_append_singleton i _
  have hnot : i ∉ v.done := by
    have honce := h.once
    rw [hopened, List.cons_append, List.nodup_cons, List.mem_append] at honce
    exact fun hi => honce.1 (Or.inr hi)
  exact {
    once := hperm.nodup_iff.mpr h.once
    seen := fun j => (h.seen j).trans hperm.mem_iff.symm
    bounded := h.bounded
    looked := fun e he => h.looked e (hstack ▸ List.mem_cons_of_mem _ he)
    ahead := fun e he => h.ahead e (hstack ▸ List.mem_cons_of_mem _ he)
    chain := (hopened ▸ h.chain).tail
    closed := by
      intro k hk j hj
      rcases List.mem_append.mp hk with hk | hk
      · exact List.mem_append_left _ (h.closed k hk j hj)
      · rw [List.mem_singleton.mp hk] at hj
        exact List.mem_append_left _ (h.targets_done hacyclic hstack hj)
    ordered := by
      refine List.pairwise_append.mpr ⟨h.ordered, List.pairwise_singleton _ _, ?_⟩
      intro k hk j hj hjk
      rw [List.mem_singleton.mp hj] at hjk
      exact hnot (h.closed k hk i hjk) }

theorem Valid.skip (h : v.Valid targets n) {i j : Nat} {rest : List Nat}
    (inner : List (Nat × List Nat)) {outer : List (Nat × List Nat)}
    (hstack : v.stack = inner ++ (i, j :: rest) :: outer)
    (hj : j ∈ v.seen) : Valid targets n { v with stack := inner ++ (i, rest) :: outer } := by
  have hopened : opened { v with stack := inner ++ (i, rest) :: outer } = v.opened := by
    rw [opened, opened, hstack, List.map_append, List.map_append, List.map_cons, List.map_cons]
  have hin : (i, j :: rest) ∈ v.stack := hstack ▸ List.mem_append_right _ List.mem_cons_self
  have hcases : ∀ e ∈ inner ++ (i, rest) :: outer, e = (i, rest) ∨ e ∈ v.stack := by
    intro e he
    rw [hstack]
    simp only [List.mem_append, List.mem_cons] at he ⊢
    tauto
  exact {
    once := hopened ▸ h.once
    seen := hopened ▸ h.seen
    bounded := h.bounded
    looked := by
      intro e he k hk
      rcases hcases e he with rfl | he
      · rcases h.looked _ hin k hk with hk | hk
        · exact Or.inl hk
        · rcases List.mem_cons.mp hk with rfl | hk
          · exact Or.inl hj
          · exact Or.inr hk
      · exact h.looked e he k hk
    ahead := by
      intro e he k hk
      rcases hcases e he with rfl | he
      · exact h.ahead _ hin k (List.mem_cons_of_mem j hk)
      · exact h.ahead e he k hk
    chain := hopened ▸ h.chain
    closed := h.closed
    ordered := h.ordered }

theorem Valid.next_target (h : v.Valid targets n) {i j : Nat} {rest : List Nat}
    {outer : List (Nat × List Nat)} (hstack : v.stack = (i, j :: rest) :: outer) : j ∈ targets i :=
  h.ahead (i, j :: rest) (hstack ▸ List.mem_cons_self) j List.mem_cons_self

/-- Opens a node inside the others. -/
def enter (targets : Nat → List Nat) (v : Visit) (j : Nat) : Visit :=
  { v with seen := j :: v.seen, stack := (j, targets j) :: v.stack }

theorem Valid.enter (h : v.Valid targets n) {j : Nat} (hj : j ∉ v.seen) (hlt : j < n)
    (hinner : ∀ i ∈ v.opened.head?, j ∈ targets i) : Valid targets n (v.enter targets j) := by
  have hnot : j ∉ v.opened ++ v.done := fun hin => hj ((h.seen j).mpr hin)
  exact {
    once := List.nodup_cons.mpr ⟨hnot, h.once⟩
    seen := fun i => by
      show i ∈ j :: v.seen ↔ i ∈ j :: (v.opened ++ v.done)
      rw [List.mem_cons, List.mem_cons, h.seen]
    bounded := List.forall_mem_cons.mpr ⟨hlt, h.bounded⟩
    looked := by
      intro e he k hk
      rcases List.mem_cons.mp he with rfl | he
      · exact Or.inr hk
      · exact (h.looked e he k hk).imp_left (List.mem_cons_of_mem j)
    ahead := by
      intro e he k hk
      rcases List.mem_cons.mp he with rfl | he
      · exact hk
      · exact h.ahead e he k hk
    chain := List.isChain_cons.mpr ⟨hinner, h.chain⟩
    closed := h.closed
    ordered := h.ordered }

theorem step_cases (targets : Nat → List Nat) (v : Visit) :
    (v.stack = [] ∧ v.step targets = v) ∨
    (∃ i outer, v.stack = (i, []) :: outer ∧
      v.step targets = { v with stack := outer, done := v.done ++ [i] }) ∨
    (∃ i j rest outer, v.stack = (i, j :: rest) :: outer ∧ j ∈ v.seen ∧
      v.step targets = { v with stack := (i, rest) :: outer }) ∨
    (∃ i j rest outer, v.stack = (i, j :: rest) :: outer ∧ j ∉ v.seen ∧ v.step targets =
      { v.enter targets j with stack := [(j, targets j)] ++ (i, rest) :: outer }) := by
  rcases hstack : v.stack with _ | ⟨⟨i, _ | ⟨j, rest⟩⟩, outer⟩
  · exact Or.inl ⟨rfl, by simp [step, hstack]⟩
  · exact Or.inr (Or.inl ⟨i, outer, rfl, by simp [step, hstack]⟩)
  · by_cases hj : j ∈ v.seen
    · exact Or.inr (Or.inr (Or.inl ⟨i, j, rest, outer, rfl, hj, by simp [step, hstack, hj]⟩))
    · refine Or.inr (Or.inr (Or.inr ⟨i, j, rest, outer, rfl, hj, ?_⟩))
      simp [step, hstack, hj, enter]

theorem seen_step (targets : Nat → List Nat) (v : Visit) : v.seen ⊆ (v.step targets).seen := by
  obtain ⟨_, heq⟩ | ⟨_, _, _, heq⟩ | ⟨_, _, _, _, _, _, heq⟩ | ⟨_, j, _, _, _, _, heq⟩ :=
    step_cases targets v
  · rw [heq]
    exact fun _ h => h
  · exact heq ▸ List.Subset.refl _
  · exact heq ▸ List.Subset.refl _
  · exact heq ▸ List.subset_cons_self j v.seen

section
variable (hbounded : ∀ i, ∀ j ∈ targets i, j < n) (hacyclic : ∀ i, ¬ Route targets i i)
include hbounded hacyclic

theorem Valid.step (h : v.Valid targets n) : (v.step targets).Valid targets n := by
  obtain ⟨_, heq⟩ | ⟨i, outer, hstack, heq⟩ | ⟨i, j, rest, outer, hstack, hj, heq⟩ |
    ⟨i, j, rest, outer, hstack, hj, heq⟩ := step_cases targets v
  · rw [heq]
    exact h
  · rw [heq]
    exact h.finish hacyclic hstack
  · rw [heq]
    exact h.skip [] hstack hj
  · have htarget := h.next_target hstack
    have henter : (v.enter targets j).Valid targets n := by
      refine h.enter hj (hbounded i j htarget) ?_
      simpa [opened, hstack] using htarget
    rw [heq]
    refine henter.skip [(j, targets j)] ?_ List.mem_cons_self
    rw [Visit.enter, hstack, List.singleton_append]

end

/-! ## Work -/

/-- The steps that are left: each unseen node has to be opened, look at its targets and be done,
and each open node has to look at the rest of its targets and be done. -/
def work (targets : Nat → List Nat) (n : Nat) (v : Visit) : Nat :=
  ∑ i ∈ (Finset.range n).filter (· ∉ v.seen), ((targets i).length + 1) +
    (v.stack.map fun e => e.2.length + 1).sum

theorem work_enter {j : Nat} (hj : j ∉ v.seen) (hlt : j < n) :
    work targets n (v.enter targets j) = work targets n v := by
  have herase : (Finset.range n).filter (· ∉ j :: v.seen) =
      ((Finset.range n).filter (· ∉ v.seen)).erase j := by
    ext i
    simp only [Finset.mem_filter, Finset.mem_range, List.mem_cons, Finset.mem_erase]
    tauto
  have hin : j ∈ (Finset.range n).filter (· ∉ v.seen) := by simp [hj, hlt]
  have hsum := Finset.sum_erase_add _ (fun i => (targets i).length + 1) hin
  unfold work enter
  simp only [herase, List.map_cons, List.sum_cons]
  omega

theorem work_step (hbounded : ∀ i, ∀ j ∈ targets i, j < n) (h : v.Valid targets n)
    (hopen : v.stack ≠ []) : work targets n (v.step targets) + 1 = work targets n v := by
  obtain ⟨hnil, _⟩ | ⟨i, outer, hstack, heq⟩ | ⟨i, j, rest, outer, hstack, hj, heq⟩ |
    ⟨i, j, rest, outer, hstack, hj, heq⟩ := step_cases targets v
  · exact absurd hnil hopen
  · simp only [heq, work, hstack, List.map_cons, List.sum_cons, List.length_nil]
    omega
  · simp only [heq, work, hstack, List.map_cons, List.sum_cons, List.length_cons]
    omega
  · have htarget := h.next_target hstack
    rw [← work_enter hj (hbounded i j htarget), heq]
    simp only [work, enter, hstack, List.singleton_append, List.map_cons, List.sum_cons,
      List.length_cons]
    omega

/-! ## Runs -/

theorem seen_run (targets : Nat → List Nat) (bound : Nat) (v : Visit) :
    v.seen ⊆ (run targets bound v).seen := by
  induction bound generalizing v with
  | zero => exact fun _ h => h
  | succ bound ih =>
    unfold run
    split
    · exact fun _ h => h
    · exact List.Subset.trans (seen_step targets v) (ih _)

/-- Visits under which no node is left open. -/
structure Complete (targets : Nat → List Nat) (n : Nat) (v : Visit) : Prop
    extends v.Valid targets n where
  stack : v.stack = []

/-- The work that is left is at most what it was when no node was seen. -/
theorem Complete.work_le (h : v.Complete targets n) :
    work targets n v ≤ ∑ i ∈ Finset.range n, ((targets i).length + 1) := by
  unfold work
  rw [h.stack, List.map_nil, List.sum_nil, Nat.add_zero]
  exact Finset.sum_le_sum_of_subset (Finset.filter_subset _ _)

theorem root_of_mem {bound i : Nat} (hi : i ∈ v.seen) : root targets bound v i = v := if_pos hi

theorem Complete.root_of_not_mem (h : v.Complete targets n) {bound i : Nat} (hi : i ∉ v.seen) :
    root targets bound v i = run targets bound (v.enter targets i) := by
  rw [Visit.root, if_neg hi, Visit.enter, h.stack]

theorem Complete.enter (h : v.Complete targets n) {i : Nat} (hi : i < n) (hnot : i ∉ v.seen) :
    (v.enter targets i).Valid targets n := by
  refine h.toValid.enter hnot hi ?_
  simp [opened, h.stack]

section
variable (hbounded : ∀ i, ∀ j ∈ targets i, j < n) (hacyclic : ∀ i, ¬ Route targets i i)
include hbounded hacyclic

/-- With a bound on the work that is left, a run ends with no node open. -/
theorem Valid.run (h : v.Valid targets n) {bound : Nat} (hwork : work targets n v ≤ bound) :
    (run targets bound v).Complete targets n := by
  induction bound generalizing v with
  | zero =>
    have hstack : v.stack = [] := by
      by_contra hopen
      have := work_step hbounded h hopen
      omega
    exact ⟨h, hstack⟩
  | succ bound ih =>
    unfold Visit.run
    split
    · next hempty => exact ⟨h, List.isEmpty_iff.mp hempty⟩
    · next hopen =>
      have hwork' := work_step hbounded h (fun hnil => hopen (List.isEmpty_iff.mpr hnil))
      exact ih (h.step hbounded hacyclic) (by omega)

theorem Complete.root (h : v.Complete targets n) {bound : Nat}
    (hbound : ∑ i ∈ Finset.range n, ((targets i).length + 1) ≤ bound) {i : Nat} (hi : i < n) :
    (root targets bound v i).Complete targets n ∧
      i :: v.seen ⊆ (root targets bound v i).seen := by
  by_cases hin : i ∈ v.seen
  · rw [root_of_mem hin]
    exact ⟨h, List.cons_subset.mpr ⟨hin, fun _ h => h⟩⟩
  · rw [h.root_of_not_mem hin]
    refine ⟨(h.enter hi hin).run hbounded hacyclic ?_,
      seen_run targets bound (v.enter targets i)⟩
    rw [work_enter hin hi]
    exact h.work_le.trans hbound

theorem Complete.foldl_root (h : v.Complete targets n) {bound : Nat}
    (hbound : ∑ i ∈ Finset.range n, ((targets i).length + 1) ≤ bound) (roots : List Nat)
    (hroots : ∀ i ∈ roots, i < n) :
    (roots.foldl (Visit.root targets bound) v).Complete targets n ∧
      roots ⊆ (roots.foldl (Visit.root targets bound) v).seen := by
  have hfold : (roots.foldl (Visit.root targets bound) v).Complete targets n ∧
      roots ++ v.seen ⊆ (roots.foldl (Visit.root targets bound) v).seen := by
    induction roots generalizing v with
    | nil => exact ⟨h, fun _ h => h⟩
    | cons i roots ih =>
      obtain ⟨hi, hroots⟩ := List.forall_mem_cons.mp hroots
      obtain ⟨hroot, hseen⟩ := h.root hbounded hacyclic hbound hi
      obtain ⟨hrest, hseen'⟩ := ih hroot hroots
      refine ⟨hrest, ?_⟩
      intro k hk
      apply hseen'
      simp only [List.cons_append, List.mem_cons, List.mem_append] at hk ⊢
      rcases hk with rfl | hk | hk
      · exact Or.inr (hseen List.mem_cons_self)
      · exact Or.inl hk
      · exact Or.inr (hseen (List.mem_cons_of_mem i hk))
  exact ⟨hfold.1, fun i hi => hfold.2 (List.mem_append_left _ hi)⟩

end

end Visit

namespace ReferenceGraph

variable {g : ReferenceGraph}

theorem effort_eq : g.effort = ∑ i ∈ Finset.range g.size, ((g.targets i).length + 1) := by
  have hlinks : g.nodes.map (fun node => node.links.length) =
      (List.range g.size).map fun i => (g.targets i).length := by
    apply List.ext_getElem
    · simp [size]
    · intro i hi _
      rw [List.length_map] at hi
      simp [targets, links, List.getElem?_eq_getElem hi]
  have hsum : ((List.range g.size).map fun i => (g.targets i).length).sum =
      ∑ i ∈ Finset.range g.size, (g.targets i).length := rfl
  rw [effort, List.length_flatMap, hlinks, hsum, Finset.sum_add_distrib,
    ← Finset.card_eq_sum_ones, Finset.card_range, Nat.add_comm]

theorem roots_perm (policy : OrderingPolicy) : (g.roots policy).Perm (List.range g.size) := by
  cases policy with
  | resolution => exact .refl _
  | path => exact List.mergeSort_perm _ _

/-- Without a route back to where it starts, every node is visited once, and after its targets. -/
theorem referencesFirst_ordered (hbounded : ∀ i j, g.Edge i j → j < g.size)
    (hacyclic : ∀ i, ¬ Relation.TransGen g.Edge i i) {roots : List Nat}
    (hroots : roots.Perm (List.range g.size)) :
    (g.referencesFirst roots).Perm (List.range g.size) ∧
      (g.referencesFirst roots).Pairwise fun i j => ¬ g.Edge i j := by
  have hlt : ∀ i ∈ roots, i < g.size := fun i hi => List.mem_range.mp (hroots.mem_iff.mp hi)
  obtain ⟨hdone, hseen⟩ := Visit.Complete.foldl_root hbounded hacyclic
    ⟨Visit.empty_valid, rfl⟩ effort_eq.ge roots hlt
  have hmem : ∀ i, i ∈ (roots.foldl (Visit.root g.targets g.effort) ⟨[], [], []⟩).seen ↔
      i ∈ g.referencesFirst roots := by
    intro i
    rw [hdone.seen, Visit.opened, hdone.stack]
    rfl
  have honce : (g.referencesFirst roots).Nodup := (List.nodup_append.mp hdone.once).2.1
  refine ⟨(List.perm_ext_iff_of_nodup honce List.nodup_range).mpr fun i => ?_, hdone.ordered⟩
  rw [← hmem, List.mem_range]
  constructor
  · exact hdone.bounded i
  · exact fun hi => hseen (hroots.mem_iff.mpr (List.mem_range.mpr hi))

end ReferenceGraph

end IncrementalBuild
