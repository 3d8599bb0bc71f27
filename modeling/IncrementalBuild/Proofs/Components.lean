import Mathlib.Logic.Relation
/-!
# Components of a relation

Two elements are connected if each leads to the other. A tangle is a component of at least two
elements. What is stated here: a map that carries one relation to another carries the tangles and
the loops of the one to those of the other, so they can be told of files or of their numbers.
-/
namespace IncrementalBuild

variable {α β : Type}

/-- Two elements that lead to each other, by any number of steps. -/
def Connected (r : α → α → Prop) (a b : α) : Prop :=
  Relation.ReflTransGen r a b ∧ Relation.ReflTransGen r b a

theorem Connected.refl {r : α → α → Prop} (a : α) : Connected r a a := ⟨.refl, .refl⟩

theorem Connected.symm {r : α → α → Prop} {a b : α} (h : Connected r a b) : Connected r b a :=
  ⟨h.2, h.1⟩

theorem Connected.trans {r : α → α → Prop} {a b c : α} (h : Connected r a b)
    (h' : Connected r b c) : Connected r a c :=
  ⟨h.1.trans h'.1, h'.2.trans h.2⟩

/-- A component of at least two elements, written in the order of `all`. -/
structure IsTangle (r : α → α → Prop) (all c : List α) : Prop where
  sorted : c.Sublist all
  several : 1 < c.length
  whole : ∀ a ∈ c, ∀ b, b ∈ c ↔ Connected r a b

theorem IsTangle.exists_cons {r : α → α → Prop} {all c : List α} (h : IsTangle r all c) :
    ∃ a rest, c = a :: rest :=
  List.exists_cons_of_length_pos (Nat.lt_of_succ_lt h.several)

/-- Each element of a tangle has a step to another element of it. -/
theorem IsTangle.exists_step {r : α → α → Prop} {all c : List α} {a : α}
    (h : IsTangle r all c) (hall : all.Nodup) (ha : a ∈ c) : ∃ b ∈ c, r a b := by
  obtain ⟨x, c, rfl⟩ := h.exists_cons
  obtain ⟨y, c, rfl⟩ : ∃ y rest, c = y :: rest :=
    List.exists_cons_of_length_pos (Nat.lt_of_succ_lt_succ h.several)
  have hxy : x ≠ y := by
    rintro rfl
    exact (List.nodup_cons.mp (hall.sublist h.sorted)).1 List.mem_cons_self
  -- one of the first two elements is another one
  obtain ⟨b, hb, hne⟩ : ∃ b ∈ x :: y :: c, a ≠ b := by
    by_cases hax : a = x
    · exact ⟨y, by simp, hax ▸ hxy⟩
    · exact ⟨x, by simp, hax⟩
  have hab : Connected r a b := (h.whole a ha b).mp hb
  obtain rfl | ⟨z, haz, hzb⟩ := hab.1.cases_head
  · exact absurd rfl hne
  · exact ⟨z, (h.whole a ha z).mpr ⟨.single haz, hzb.trans hab.2⟩, haz⟩

/-! ## Along a map -/

/-- A map that is injective on a list and carries the steps there to all steps of another
relation. -/
structure Carries (f : α → β) (all : List α) (r : α → α → Prop) (s : β → β → Prop) : Prop where
  inj : ∀ a ∈ all, ∀ b ∈ all, f a = f b → a = b
  push : ∀ a b, r a b → a ∈ all ∧ b ∈ all ∧ s (f a) (f b)
  pull : ∀ x y, s x y → ∃ a b, r a b ∧ f a = x ∧ f b = y

namespace Carries

variable {f : α → β} {all : List α} {r : α → α → Prop} {s : β → β → Prop}

theorem leads (h : Carries f all r s) {a b : α} (hab : Relation.ReflTransGen r a b) :
    Relation.ReflTransGen s (f a) (f b) := by
  induction hab with
  | refl => exact .refl
  | tail _ hbc ih => exact ih.tail (h.push _ _ hbc).2.2

theorem exists_leads (h : Carries f all r s) {a : α} (ha : a ∈ all) {y : β}
    (hy : Relation.ReflTransGen s (f a) y) :
    ∃ b ∈ all, Relation.ReflTransGen r a b ∧ f b = y := by
  induction hy with
  | refl => exact ⟨a, ha, .refl, rfl⟩
  | tail _ hstep ih =>
    obtain ⟨b, hb, hab, rfl⟩ := ih
    obtain ⟨b', c, hbc, heq, rfl⟩ := h.pull _ _ hstep
    obtain ⟨hb', hc, _⟩ := h.push b' c hbc
    obtain rfl := h.inj b' hb' b hb heq
    exact ⟨c, hc, hab.tail hbc, rfl⟩

theorem leads_iff (h : Carries f all r s) {a b : α} (ha : a ∈ all) (hb : b ∈ all) :
    Relation.ReflTransGen s (f a) (f b) ↔ Relation.ReflTransGen r a b := by
  constructor
  · intro hab
    obtain ⟨b', hb', hab', heq⟩ := h.exists_leads ha hab
    exact h.inj b' hb' b hb heq ▸ hab'
  · exact h.leads

theorem connected_iff (h : Carries f all r s) {a b : α} (ha : a ∈ all) (hb : b ∈ all) :
    Connected s (f a) (f b) ↔ Connected r a b :=
  and_congr (h.leads_iff ha hb) (h.leads_iff hb ha)

theorem exists_loop_iff (h : Carries f all r s) :
    (∃ x, Relation.TransGen s x x) ↔ ∃ a, Relation.TransGen r a a := by
  constructor
  · rintro ⟨x, hloop⟩
    obtain ⟨y, hxy, hyx⟩ := Relation.TransGen.head'_iff.mp hloop
    obtain ⟨a, b, hab, rfl, rfl⟩ := h.pull x y hxy
    obtain ⟨ha, hb, _⟩ := h.push a b hab
    exact ⟨a, .head' hab ((h.leads_iff hb ha).mp hyx)⟩
  · rintro ⟨a, hloop⟩
    obtain ⟨b, hab, hba⟩ := Relation.TransGen.head'_iff.mp hloop
    exact ⟨f a, .head' (h.push a b hab).2.2 (h.leads hba)⟩

/-- The tangles of one relation are the images of the tangles of the other. -/
theorem isTangle_iff (h : Carries f all r s) {d : List β} :
    IsTangle s (all.map f) d ↔ ∃ c, IsTangle r all c ∧ c.map f = d := by
  constructor
  · intro hd
    obtain ⟨c, hc, rfl⟩ := List.sublist_map_iff.mp hd.sorted
    refine ⟨c, ⟨hc, by simpa using hd.several, fun a ha b => ?_⟩, rfl⟩
    have hall := hc.subset ha
    have hwhole := hd.whole (f a) (List.mem_map_of_mem ha)
    constructor
    · intro hb
      exact (h.connected_iff hall (hc.subset hb)).mp ((hwhole _).mp (List.mem_map_of_mem hb))
    · intro hab
      obtain ⟨b', hb', heq⟩ := List.mem_map.mp ((hwhole _).mpr ⟨h.leads hab.1, h.leads hab.2⟩)
      obtain rfl | ⟨x, hbx, _⟩ := hab.2.cases_head
      · exact ha
      · exact h.inj b' (hc.subset hb') b (h.push b x hbx).1 heq ▸ hb'
  · rintro ⟨c, hc, rfl⟩
    refine ⟨hc.sorted.map f, by simpa using hc.several, fun x hx y => ?_⟩
    obtain ⟨a, ha, rfl⟩ := List.mem_map.mp hx
    have hall := hc.sorted.subset ha
    constructor
    · intro hy
      obtain ⟨b, hb, rfl⟩ := List.mem_map.mp hy
      exact (h.connected_iff hall (hc.sorted.subset hb)).mpr ((hc.whole a ha b).mp hb)
    · intro hxy
      obtain ⟨b, hb, _, rfl⟩ := h.exists_leads hall hxy.1
      exact List.mem_map_of_mem ((hc.whole a ha b).mpr ((h.connected_iff hall hb).mp hxy))

end Carries

end IncrementalBuild
