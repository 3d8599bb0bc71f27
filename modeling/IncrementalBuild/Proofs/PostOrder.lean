import Mathlib.Data.List.Basic
/-!
# Post-order by recursion

A depth-first visit told by recursion: a node that is not done yet is done when its targets have
been visited, one after the other. What is stated here: what is done stays done, a deeper recursion
gives the same once it is deep enough, and nodes under other names are visited the same way.
-/
namespace IncrementalBuild.PostOrder

variable {α β : Type} [DecidableEq α] [DecidableEq β] {targets : α → List α} {depth : Nat}
  {done : List α}

/-- What is done after a visit of a node. A node that is done is passed over, and any other is done
when its targets have been visited. A recursion that goes deeper than `depth` has no result. -/
def visit? (targets : α → List α) : Nat → List α → α → Option (List α)
  | 0, _, _ => none
  | depth + 1, done, a =>
    if a ∈ done then some done
    else ((targets a).foldlM (visit? targets depth) done).map (· ++ [a])

/-- What is done after visits of nodes, one after the other. -/
def visitAll? (targets : α → List α) (depth : Nat) (done roots : List α) : Option (List α) :=
  roots.foldlM (visit? targets depth) done

@[simp] theorem visitAll?_nil : visitAll? targets depth done [] = some done := rfl

theorem visitAll?_cons (a : α) (roots : List α) :
    visitAll? targets depth done (a :: roots) =
      (visit? targets depth done a).bind fun now => visitAll? targets depth now roots :=
  List.foldlM_cons

theorem visit?_succ_of_mem {a : α} (ha : a ∈ done) :
    visit? targets (depth + 1) done a = some done := if_pos ha

theorem visit?_succ_of_not_mem {a : α} (ha : a ∉ done) : visit? targets (depth + 1) done a =
    (visitAll? targets depth done (targets a)).map (· ++ [a]) := if_neg ha

/-- What holds after a visit, if every node that is done keeps it. -/
theorem visit?_keeps (inside : α → Prop) (holds : List α → Prop)
    (hinside : ∀ a, inside a → ∀ b ∈ targets a, inside b)
    (hholds : ∀ done a, inside a → holds done → holds (done ++ [a])) {a : α} {now : List α}
    (ha : inside a) (hdone : holds done) (h : visit? targets depth done a = some now) :
    holds now := by
  induction depth generalizing done a now with
  | zero => cases h
  | succ depth ih =>
    by_cases hin : a ∈ done
    · obtain rfl := Option.some.inj ((visit?_succ_of_mem hin).symm.trans h)
      exact hdone
    · rw [visit?_succ_of_not_mem hin, Option.map_eq_some_iff] at h
      obtain ⟨inner, hinner, rfl⟩ := h
      have hall : ∀ nodes done, (∀ b ∈ nodes, inside b) → holds done →
          visitAll? targets depth done nodes = some inner → holds inner := by
        intro nodes
        induction nodes with
        | nil =>
          intro done _ hdone h
          exact Option.some.inj h ▸ hdone
        | cons b nodes ihnodes =>
          intro done hnodes hdone h
          rw [visitAll?_cons, Option.bind_eq_some_iff] at h
          obtain ⟨next, hnext, h⟩ := h
          obtain ⟨hb, hnodes⟩ := List.forall_mem_cons.mp hnodes
          exact ihnodes next hnodes (ih hb hdone hnext) h
      exact hholds inner a ha (hall _ _ (hinside a ha) hdone hinner)

theorem visit?_grows {a : α} {now : List α} (h : visit? targets depth done a = some now) :
    done ⊆ now :=
  visit?_keeps (fun _ => True) (done ⊆ ·) (fun _ _ _ _ => trivial)
    (fun _ a _ hin => List.subset_append_of_subset_left [a] hin) trivial (List.Subset.refl done) h

theorem visit?_mem {a : α} {now : List α} (h : visit? targets depth done a = some now) :
    a ∈ now := by
  cases depth with
  | zero => cases h
  | succ depth =>
    by_cases hin : a ∈ done
    · exact visit?_grows h hin
    · rw [visit?_succ_of_not_mem hin, Option.map_eq_some_iff] at h
      obtain ⟨inner, _, rfl⟩ := h
      exact List.mem_append_right inner List.mem_cons_self

/-! ## Depth -/

section
variable {rank : α → Nat} (hrank : ∀ a, ∀ b ∈ targets a, rank b < rank a)
include hrank

/-- A recursion that is deep enough for a node gives what any deeper one does. -/
theorem visit?_depth {depth' : Nat} {a : α} (h : rank a < depth) (h' : rank a < depth') :
    visit? targets depth done a = visit? targets depth' done a := by
  induction depth generalizing depth' a done with
  | zero => exact absurd h (Nat.not_lt_zero _)
  | succ depth ih =>
    obtain ⟨depth', rfl⟩ := Nat.exists_eq_add_one_of_ne_zero (Nat.ne_zero_of_lt h')
    by_cases ha : a ∈ done
    · rw [visit?_succ_of_mem ha, visit?_succ_of_mem ha]
    · have hall : ∀ nodes ⊆ targets a, ∀ done,
          visitAll? targets depth done nodes = visitAll? targets depth' done nodes := by
        intro nodes
        induction nodes with
        | nil => exact fun _ _ => rfl
        | cons b nodes ihnodes =>
          intro hnodes done
          obtain ⟨hb, hnodes⟩ := List.cons_subset.mp hnodes
          have hlt := hrank a b hb
          have heq : visit? targets depth done b = visit? targets depth' done b :=
            ih (by omega) (by omega)
          rw [visitAll?_cons, visitAll?_cons, heq]
          exact congrArg _ (funext fun now => ihnodes hnodes now)
      rw [visit?_succ_of_not_mem ha, visit?_succ_of_not_mem ha, hall _ (List.Subset.refl _)]

theorem visit?_of_not_mem {a : α} (h : rank a < depth) (ha : a ∉ done) :
    visit? targets depth done a = (visitAll? targets depth done (targets a)).map (· ++ [a]) := by
  rw [visit?_depth hrank h (Nat.lt_succ_of_lt h), visit?_succ_of_not_mem ha]

end

theorem visit?_of_mem {a : α} (h : 0 < depth) (ha : a ∈ done) :
    visit? targets depth done a = some done := by
  obtain ⟨depth, rfl⟩ := Nat.exists_eq_add_one_of_ne_zero (Nat.ne_of_gt h)
  exact visit?_succ_of_mem ha

/-! ## Nodes in order -/

theorem visitAll?_of_subset {nodes : List α} (h : 0 < depth) (hnodes : nodes ⊆ done) :
    visitAll? targets depth done nodes = some done := by
  induction nodes with
  | nil => rfl
  | cons a nodes ih =>
    obtain ⟨ha, hnodes⟩ := List.cons_subset.mp hnodes
    rw [visitAll?_cons, visit?_of_mem h ha]
    exact ih hnodes

theorem visitAll?_of_behind {nodes : List α} (hnodup : nodes.Nodup)
    (hbehind : ∀ before a after, nodes = before ++ a :: after → targets a ⊆ before)
    (h : 2 ≤ depth) : visitAll? targets depth [] nodes = some nodes := by
  obtain ⟨depth, rfl⟩ := Nat.exists_eq_add_of_le' h
  -- the induction is on the nodes that are left
  have hrest : ∀ rest done, nodes = done ++ rest →
      visitAll? targets (depth + 2) done rest = some nodes := by
    intro rest
    induction rest with
    | nil =>
      intro done hnodes
      rw [hnodes, List.append_nil]
      rfl
    | cons a rest ih =>
      intro done hnodes
      have ha : a ∉ done := fun hin =>
        (List.nodup_append.mp (hnodes ▸ hnodup)).2.2 a hin a List.mem_cons_self rfl
      have hinner : visitAll? targets (depth + 1) done (targets a) = some done :=
        visitAll?_of_subset (Nat.succ_pos depth) (hbehind done a rest hnodes)
      rw [visitAll?_cons, visit?_succ_of_not_mem ha, hinner]
      exact ih (done ++ [a]) (by rw [hnodes, List.append_assoc, List.singleton_append])
  exact hrest nodes [] rfl

/-! ## Other names for the nodes -/

section
variable {f : α → β} {all : List α} {references : α → List α} {targets : β → List β}
  (hclosed : ∀ a ∈ all, references a ⊆ all)
include hclosed

theorem visit?_subset {done : List α} {a : α} {now : List α} (hdone : done ⊆ all) (ha : a ∈ all)
    (h : visit? references depth done a = some now) : now ⊆ all :=
  visit?_keeps (· ∈ all) (· ⊆ all) (fun a ha _ hb => hclosed a ha hb)
    (fun _ _ ha hdone => List.append_subset.mpr
      ⟨hdone, List.cons_subset.mpr ⟨ha, List.nil_subset all⟩⟩) ha hdone h

theorem visitAll?_subset {done nodes now : List α} (hdone : done ⊆ all) (hnodes : nodes ⊆ all)
    (h : visitAll? references depth done nodes = some now) : now ⊆ all := by
  induction nodes generalizing done with
  | nil => exact Option.some.inj h ▸ hdone
  | cons b nodes ih =>
    obtain ⟨hb, hnodes⟩ := List.cons_subset.mp hnodes
    rw [visitAll?_cons, Option.bind_eq_some_iff] at h
    obtain ⟨next, hnext, h⟩ := h
    exact ih (visit?_subset hclosed hdone hb hnext) hnodes h

/-- What is the same for one node under other names is the same for one after the other. -/
theorem visitAll?_map_of_visit? (hvisit : ∀ done ⊆ all, ∀ a ∈ all,
      visit? targets depth (done.map f) (f a) = (visit? references depth done a).map (List.map f))
    {done nodes : List α} (hdone : done ⊆ all) (hnodes : nodes ⊆ all) :
    visitAll? targets depth (done.map f) (nodes.map f) =
      (visitAll? references depth done nodes).map (List.map f) := by
  induction nodes generalizing done with
  | nil => rfl
  | cons b nodes ih =>
    obtain ⟨hb, hnodes⟩ := List.cons_subset.mp hnodes
    rw [List.map_cons, visitAll?_cons, visitAll?_cons, hvisit done hdone b hb, Option.bind_map,
      Option.map_bind]
    exact Option.bind_congr fun now hnow => ih (visit?_subset hclosed hdone hb hnow) hnodes

variable (hinj : ∀ a ∈ all, ∀ b ∈ all, f a = f b → a = b)
  (htargets : ∀ a ∈ all, ∀ depth done, visitAll? targets depth done (targets (f a)) =
    visitAll? targets depth done ((references a).map f))
include hinj htargets

/-- Under other names, nodes whose targets come to the same visits are visited the same way. -/
theorem visit?_map {done : List α} {a : α} (hdone : done ⊆ all) (ha : a ∈ all) :
    visit? targets depth (done.map f) (f a) =
      (visit? references depth done a).map (List.map f) := by
  induction depth generalizing done a with
  | zero => rfl
  | succ depth ih =>
    have hmem : f a ∈ done.map f ↔ a ∈ done := by
      refine ⟨fun h => ?_, List.mem_map_of_mem⟩
      obtain ⟨b, hb, heq⟩ := List.mem_map.mp h
      exact hinj b (hdone hb) a ha heq ▸ hb
    by_cases hin : a ∈ done
    · rw [visit?_succ_of_mem hin, visit?_succ_of_mem (hmem.mpr hin)]
      rfl
    · have hall := visitAll?_map_of_visit? hclosed (fun done hdone a ha => ih hdone ha) hdone
        (hclosed a ha)
      rw [visit?_succ_of_not_mem hin, visit?_succ_of_not_mem (mt hmem.mp hin), htargets a ha, hall,
        Option.map_map, Option.map_map]
      have happend : ∀ inner : List α, inner.map f ++ [f a] = (inner ++ [a]).map f := by
        intro inner
        rw [List.map_append, List.map_singleton]
      exact congrArg (fun rename => Option.map rename _) (funext happend)

theorem visitAll?_map {done nodes : List α} (hdone : done ⊆ all) (hnodes : nodes ⊆ all) :
    visitAll? targets depth (done.map f) (nodes.map f) =
      (visitAll? references depth done nodes).map (List.map f) :=
  visitAll?_map_of_visit? hclosed
    (fun _ hdone _ ha => visit?_map hclosed hinj htargets hdone ha) hdone hnodes

end

end IncrementalBuild.PostOrder
