import Mathlib.Data.List.Nodup
/-!
# Lists under keys

A list whose items have different keys is a table: looking a key up finds the one item that has
it. What is stated here: how looking up goes with the other operations on lists, and what writing
under a key does to a list of pairs.
-/
namespace IncrementalBuild

section Lookup
variable {α κ : Type} [DecidableEq κ] {key : α → κ} {l : List α}

theorem find?_key_eq_some_iff (h : (l.map key).Nodup) {k : κ} {a : α} :
    l.find? (key · == k) = some a ↔ a ∈ l ∧ key a = k := by
  constructor
  · intro hf
    exact ⟨List.mem_of_find?_eq_some hf, by simpa using List.find?_some hf⟩
  · rintro ⟨ha, rfl⟩
    induction l with
    | nil => simp at ha
    | cons b l ih =>
      simp only [List.map_cons, List.nodup_cons] at h
      rcases List.mem_cons.mp ha with rfl | ha
      · simp
      · have hb : key b ≠ key a := by
          intro hb
          exact h.1 (hb ▸ List.mem_map_of_mem ha)
        simp [hb, ih h.2 ha]

theorem find?_key_of_mem (h : (l.map key).Nodup) {a : α} (ha : a ∈ l) :
    l.find? (key · == key a) = some a :=
  (find?_key_eq_some_iff h).mpr ⟨ha, rfl⟩

theorem find?_key_eq_none_iff {k : κ} : l.find? (key · == k) = none ↔ ∀ a ∈ l, key a ≠ k := by
  simp [List.find?_eq_none]

/-- The item with a key does not depend on the order of the items. -/
theorem find?_key_perm {l' : List α} (h : (l.map key).Nodup) (hperm : l'.Perm l) (k : κ) :
    l'.find? (key · == k) = l.find? (key · == k) := by
  have h' : (l'.map key).Nodup := (hperm.map key).nodup_iff.mpr h
  apply Option.ext
  intro a
  rw [find?_key_eq_some_iff h, find?_key_eq_some_iff h', hperm.mem_iff]

/-- Items that are changed under the same key are found as they were changed. -/
theorem find?_key_map {f : α → α} (hf : ∀ a ∈ l, key (f a) = key a) (k : κ) :
    (l.map f).find? (key · == k) = (l.find? (key · == k)).map f := by
  induction l with
  | nil => rfl
  | cons a l ih =>
    have ha := hf a List.mem_cons_self
    have ih := ih fun b hb => hf b (List.mem_cons_of_mem a hb)
    by_cases hk : key a = k
    · simp [ha, hk]
    · simpa [ha, hk] using ih

theorem find?_key_filter_ne (k k' : κ) : (l.filter (key · != k)).find? (key · == k') =
    if k' = k then none else l.find? (key · == k') := by
  induction l with
  | nil => simp
  | cons a l ih => by_cases ha : key a = k <;> by_cases hk : key a = k' <;> grind

/-- The items under a list of keys that are all there have these keys. -/
theorem map_key_filterMap_find? {ks : List κ} (h : ∀ k ∈ ks, ∃ a ∈ l, key a = k) :
    (ks.filterMap fun k => l.find? (key · == k)).map key = ks := by
  induction ks with
  | nil => rfl
  | cons k ks ih =>
    have ih := ih fun j hj => h j (List.mem_cons_of_mem k hj)
    cases hf : l.find? (key · == k) with
    | none =>
      obtain ⟨a, ha, hk⟩ := h k List.mem_cons_self
      exact absurd hk (find?_key_eq_none_iff.mp hf a ha)
    | some a =>
      have hk : key a = k := by simpa using List.find?_some hf
      simpa [List.filterMap_cons, hf, hk] using ih

/-- Lists that agree under two keys agree under all that the keys decide. -/
theorem map_eq_of_keys {α β κ γ : Type} {k : α → κ} {k' : β → κ} {g : α → γ} {g' : β → γ}
    {l : List α} {l' : List β} (h : l'.map k' = l.map k)
    (hg : ∀ a ∈ l, ∀ b ∈ l', k' b = k a → g' b = g a) : l'.map g' = l.map g := by
  induction l generalizing l' with
  | nil =>
    rw [List.map_nil, List.map_eq_nil_iff] at h
    rw [h]
    rfl
  | cons a l ih =>
    cases l' with
    | nil => simp at h
    | cons b l' =>
      rw [List.map_cons, List.map_cons, List.cons.injEq] at h
      have htail := ih h.2 fun x hx y hy =>
        hg x (List.mem_cons_of_mem a hx) y (List.mem_cons_of_mem b hy)
      have hhead := hg a List.mem_cons_self b List.mem_cons_self h.1
      rw [List.map_cons, List.map_cons, hhead, htail]

end Lookup

/-! ## Writing under a key -/

section Put
variable {α β κ : Type} [DecidableEq κ]

/-- Puts a value under a key: in place of the value the key has, or at the end. -/
def put (l : List (κ × α)) (k : κ) (a : α) : List (κ × α) :=
  if k ∈ l.map Prod.fst then l.map fun x => if x.1 = k then (k, a) else x else l ++ [(k, a)]

/-- Writing under a key that is not there puts it after all others. -/
theorem map_fst_put (l : List (κ × α)) (k : κ) (a : α) : (put l k a).map Prod.fst =
    if k ∈ l.map Prod.fst then l.map Prod.fst else l.map Prod.fst ++ [k] := by
  unfold put
  split
  · rw [List.map_map]
    refine List.map_congr_left fun x _ => ?_
    by_cases hx : x.1 = k <;> simp [hx]
  · rw [List.map_append, List.map_singleton]

theorem mem_put_of_ne {l : List (κ × α)} {x : κ × α} (hx : x ∈ l) {k : κ} (hne : x.1 ≠ k)
    (a : α) : x ∈ put l k a := by
  unfold put
  split
  · exact List.mem_map.mpr ⟨x, hx, if_neg hne⟩
  · exact List.mem_append_left _ hx

theorem filter_put (l : List (κ × α)) (k : κ) (a : α) (p : κ → Bool) :
    (put l k a).filter (fun x => p x.1) =
      if p k then put (l.filter fun x => p x.1) k a else l.filter fun x => p x.1 := by
  have hmap : (l.map fun x => if x.1 = k then (k, a) else x).filter (fun x => p x.1) =
      (l.filter fun x => p x.1).map fun x => if x.1 = k then (k, a) else x := by
    induction l with
    | nil => rfl
    | cons x l ih =>
      by_cases hx : x.1 = k <;> by_cases hp : p x.1 <;> grind
  -- a key that passes the test is in the list if it is among those that pass
  have hmem : p k → (k ∈ (l.filter fun x => p x.1).map Prod.fst ↔ k ∈ l.map Prod.fst) := by
    intro hp
    simp only [List.mem_map, List.mem_filter]
    grind
  unfold put
  by_cases hk : k ∈ l.map Prod.fst
  · by_cases hp : p k
    · simp only [hk, hp, if_true, (hmem hp).mpr hk, hmap]
    · simp only [hk, hp, if_true, hmap, Bool.false_eq_true, if_false]
      rw [List.map_congr_left (g := id), List.map_id]
      grind
  · by_cases hp : p k
    · have hk' := mt (hmem hp).mp hk
      simp [hk, hk', hp]
    · simp [hk, hp]

end Put

end IncrementalBuild
