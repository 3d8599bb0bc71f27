import Mathlib.Data.Char
import Mathlib.Data.List.Induction
import Mathlib.Data.List.Lex
import IncrementalBuild.Proofs.ReadJson
/-!
# Settled values

An object that is settled has each of its keys once, with the last value written for it, in the
order of the keys. What is stated here: settling a value leaves it the same value, a settled value
stays as it is, and what can be written and read again can be once it is settled.
-/
namespace IncrementalBuild.Json

/-! ## The last value of a key -/

section
variable {k q : Text} {v w : Json} {members : List (Text × Json)}

theorem get?_append_singleton : (object (members ++ [(k, v)])).get? q =
    if k = q then some v else (object members).get? q := by
  simp only [get?, List.reverse_append, List.reverse_singleton, List.singleton_append,
    List.find?_cons]
  by_cases h : k = q
  · simp [h]
  · rw [beq_false_of_ne h, if_neg h]

theorem mem_of_get? (h : (object members).get? k = some v) : (k, v) ∈ members := by
  obtain ⟨⟨k', v'⟩, hfind, rfl⟩ := Option.map_eq_some_iff.mp h
  obtain rfl : k' = k := by simpa using List.find?_some hfind
  exact List.mem_reverse.mp (List.mem_of_find?_eq_some hfind)

theorem get?_filter {p : Text → Bool} (hk : p k = true) (members : List (Text × Json)) :
    (object (members.filter (p ·.1))).get? k = (object members).get? k := by
  induction members using List.reverseRecOn with
  | nil => rfl
  | append_singleton members m ih =>
    obtain ⟨q, v⟩ := m
    rw [List.filter_append, get?_append_singleton, ← ih]
    cases hq : p q with
    | true =>
      have hlast : [(q, v)].filter (p ·.1) = [(q, v)] := List.filter_cons_of_pos hq
      rw [hlast, get?_append_singleton]
    | false =>
      have hne : q ≠ k := fun heq => Bool.false_ne_true (hq.symm.trans (heq ▸ hk))
      have hlast : [(q, v)].filter (p ·.1) = [] := by simp [hq]
      rw [hlast, List.append_nil, if_neg hne]

theorem settleItems_eq_map (items : List Json) : settleItems items = items.map settle := by
  induction items with
  | nil => rfl
  | cons v rest ih => rw [settleItems, ih, List.map_cons]

theorem settleMembers_eq_map (members : List (Text × Json)) :
    settleMembers members = members.map fun m => (m.1, settle m.2) := by
  induction members with
  | nil => rfl
  | cons m rest ih => rw [settleMembers, ih, List.map_cons]

theorem get?_settleMembers (k : Text) (members : List (Text × Json)) :
    (object (settleMembers members)).get? k = ((object members).get? k).map settle := by
  induction members using List.reverseRecOn with
  | nil => rfl
  | append_singleton members m ih =>
    rw [settleMembers_eq_map] at ih ⊢
    rw [List.map_append, List.map_singleton, get?_append_singleton, ih, get?_append_singleton]
    split <;> rfl

/-! ## Members in order -/

/-- Each key stands once, and the keys are in order. -/
def InOrder (members : List (Text × Json)) : Prop := members.Pairwise (·.1 < ·.1)

theorem mem_or_mem_of_insertMember {m : Text × Json} (h : m ∈ insertMember k v members) :
    m = (k, v) ∨ m ∈ members := by
  induction members with
  | nil => exact .inl (List.mem_singleton.mp h)
  | cons first rest ih =>
    obtain ⟨q, w⟩ := first
    rw [insertMember] at h
    split at h
    · exact (List.mem_cons.mp h).imp_right (List.mem_cons_of_mem _)
    · split at h
      · exact List.mem_cons.mp h
      · rcases List.mem_cons.mp h with h | h
        · exact .inr (h ▸ List.mem_cons_self)
        · exact (ih h).imp_right (List.mem_cons_of_mem _)

theorem inOrder_insertMember (h : InOrder members) (k : Text) (v : Json) :
    InOrder (insertMember k v members) := by
  induction members with
  | nil => exact List.pairwise_singleton _ _
  | cons first rest ih =>
    obtain ⟨q, w⟩ := first
    obtain ⟨hfirst, hrest⟩ := List.pairwise_cons.mp h
    rw [insertMember]
    split
    · next heq => exact List.pairwise_cons.mpr ⟨fun m hm => heq ▸ hfirst m hm, hrest⟩
    · next hne =>
      split
      · next hlt =>
        refine List.pairwise_cons.mpr ⟨fun m hm => ?_, h⟩
        rcases List.mem_cons.mp hm with rfl | hm
        · exact hlt
        · exact hlt.trans (hfirst m hm)
      · next hnot =>
        refine List.pairwise_cons.mpr ⟨fun m hm => ?_, ih hrest⟩
        rcases mem_or_mem_of_insertMember hm with rfl | hm
        · exact lt_of_le_of_ne (not_lt.mp hnot) (Ne.symm hne)
        · exact hfirst m hm

theorem mem_insertMember_self (k : Text) (v : Json) (members : List (Text × Json)) :
    (k, v) ∈ insertMember k v members := by
  induction members with
  | nil => exact List.mem_cons_self
  | cons first rest ih =>
    rw [insertMember]
    split
    · exact List.mem_cons_self
    · split
      · exact List.mem_cons_self
      · exact List.mem_cons_of_mem _ ih

theorem mem_insertMember_of_ne (hne : k ≠ q) :
    (q, w) ∈ insertMember k v members ↔ (q, w) ∈ members := by
  have hself : ∀ u : Json, (q, w) ≠ (k, u) := fun u heq => hne (Prod.mk.inj heq).1.symm
  induction members with
  | nil => simp [insertMember, hself v]
  | cons first rest ih =>
    obtain ⟨k', u⟩ := first
    rw [insertMember]
    split
    · next heq =>
      rw [← heq, List.mem_cons, List.mem_cons, or_iff_right (hself v), or_iff_right (hself u)]
    · split
      · rw [List.mem_cons, or_iff_right (hself v)]
      · rw [List.mem_cons, List.mem_cons]
        exact or_congr_right ih

theorem InOrder.eq_of_mem (h : InOrder members) (hv : (k, v) ∈ members) (hw : (k, w) ∈ members) :
    v = w := by
  induction members with
  | nil => cases hv
  | cons first rest ih =>
    obtain ⟨hfirst, hrest⟩ := List.pairwise_cons.mp h
    rcases List.mem_cons.mp hv with rfl | hv'
    · rcases List.mem_cons.mp hw with heq | hw'
      · exact (Prod.mk.inj heq).2.symm
      · exact absurd (hfirst (k, w) hw') (lt_irrefl k)
    · rcases List.mem_cons.mp hw with rfl | hw'
      · exact absurd (hfirst (k, v) hv') (lt_irrefl k)
      · exact ih hrest hv' hw'

theorem sortMembers_append_singleton (members : List (Text × Json)) (k : Text) (v : Json) :
    sortMembers (members ++ [(k, v)]) = insertMember k v (sortMembers members) :=
  List.foldl_append

theorem inOrder_sortMembers (members : List (Text × Json)) : InOrder (sortMembers members) := by
  induction members using List.reverseRecOn with
  | nil => exact .nil
  | append_singleton members m ih =>
    rw [sortMembers_append_singleton]
    exact inOrder_insertMember ih m.1 m.2

theorem mem_sortMembers : (k, v) ∈ sortMembers members ↔ (object members).get? k = some v := by
  induction members using List.reverseRecOn generalizing v with
  | nil => simp [sortMembers, get?]
  | append_singleton members m ih =>
    obtain ⟨q, w⟩ := m
    rw [sortMembers_append_singleton, get?_append_singleton]
    split
    · next heq =>
      subst heq
      have hself := mem_insertMember_self q w (sortMembers members)
      constructor
      · intro hv
        have hsorted := inOrder_insertMember (inOrder_sortMembers members) q w
        rw [hsorted.eq_of_mem hv hself]
      · rintro ⟨⟩
        exact hself
    · next hne => rw [mem_insertMember_of_ne hne, ih]

theorem insertMember_of_forall_lt (h : ∀ m ∈ members, m.1 < k) :
    insertMember k v members = members ++ [(k, v)] := by
  induction members with
  | nil => rfl
  | cons first rest ih =>
    rw [List.forall_mem_cons] at h
    rw [insertMember, if_neg h.1.ne', if_neg h.1.asymm, ih h.2, List.cons_append]

theorem InOrder.sortMembers_eq (h : InOrder members) : sortMembers members = members := by
  induction members using List.reverseRecOn with
  | nil => rfl
  | append_singleton members m ih =>
    obtain ⟨hmembers, _, hlast⟩ := List.pairwise_append.mp h
    rw [sortMembers_append_singleton, ih hmembers]
    exact insertMember_of_forall_lt fun m' hm' => hlast m' hm' m List.mem_cons_self

theorem InOrder.get?_eq_some_iff (h : InOrder members) :
    (object members).get? k = some v ↔ (k, v) ∈ members := by
  nth_rewrite 2 [← h.sortMembers_eq]
  exact mem_sortMembers.symm

end

/-! ## Settling -/

/-- What holds of every value, if it holds of a container as soon as it holds of what the container
holds. -/
theorem parts_induction {P : Json → Prop} (null : P null) (bool : ∀ b, P (bool b))
    (integer : ∀ i, P (integer i)) (double : ∀ bits, P (double bits)) (string : ∀ t, P (string t))
    (array : ∀ items, (∀ v ∈ items, P v) → P (array items))
    (object : ∀ members, (∀ m ∈ members, P m.2) → P (object members)) (v : Json) : P v := by
  refine @Json.rec P (fun items => ∀ v ∈ items, P v) (fun members => ∀ m ∈ members, P m.2)
    (fun m => P m.2) null bool integer double string array object ?_ ?_ ?_ ?_ ?_ v
  · exact List.forall_mem_nil _
  · exact fun v rest hv hrest => List.forall_mem_cons.mpr ⟨hv, hrest⟩
  · exact List.forall_mem_nil _
  · exact fun m rest hm hrest => List.forall_mem_cons.mpr ⟨hm, hrest⟩
  · exact fun k v hv => hv

/-- Every object has its keys once and in order. -/
inductive Settled : Json → Prop
  | null : Settled null
  | bool (b : Bool) : Settled (bool b)
  | integer (i : Int) : Settled (integer i)
  | double (bits : UInt64) : Settled (double bits)
  | string (t : Text) : Settled (string t)
  | array {items : List Json} : (∀ v ∈ items, Settled v) → Settled (array items)
  | object {members : List (Text × Json)} : InOrder members → (∀ m ∈ members, Settled m.2) →
      Settled (object members)

/-- Two values are the same: objects have the same keys, with the same last value for each. -/
inductive Same : Json → Json → Prop
  | refl (v : Json) : Same v v
  | array {items items' : List Json} : items.length = items'.length →
      (∀ (i : Nat) v v', items[i]? = some v → items'[i]? = some v' → Same v v') →
      Same (array items) (array items')
  | object {members members' : List (Text × Json)} :
      (∀ k, ((object members).get? k).isSome = ((object members').get? k).isSome) →
      (∀ k v v', (object members).get? k = some v → (object members').get? k = some v' →
        Same v v') →
      Same (object members) (object members')

section
variable {v w : Json} {k : Text} {members : List (Text × Json)}

theorem mem_sortMembers_settleMembers : (k, w) ∈ sortMembers (settleMembers members) ↔
    ∃ v, (object members).get? k = some v ∧ settle v = w := by
  rw [mem_sortMembers, get?_settleMembers, Option.map_eq_some_iff]

theorem settled_settle (v : Json) : Settled (settle v) := by
  induction v using parts_induction with
  | null => exact .null
  | bool b => exact .bool b
  | integer i => exact .integer i
  | double bits => exact .double bits
  | string t => exact .string t
  | array items ih =>
    rw [settle, settleItems_eq_map]
    refine .array fun v hv => ?_
    obtain ⟨u, hu, rfl⟩ := List.mem_map.mp hv
    exact ih u hu
  | object members ih =>
    refine .object (inOrder_sortMembers _) fun m hm => ?_
    obtain ⟨v, hv, hw⟩ := mem_sortMembers_settleMembers.mp hm
    exact hw ▸ ih _ (mem_of_get? hv)

theorem settleMembers_of_settled (h : ∀ m ∈ members, settle m.2 = m.2) :
    settleMembers members = members := by
  have hmap : members.map (fun m => (m.1, settle m.2)) = members.map id :=
    List.map_congr_left fun m hm => Prod.ext rfl (h m hm)
  rw [settleMembers_eq_map, hmap, List.map_id]

theorem Settled.settle_eq (h : Settled v) : settle v = v := by
  induction h with
  | @array items _ ih =>
    have hmap : items.map settle = items.map id := List.map_congr_left ih
    rw [settle, settleItems_eq_map, hmap, List.map_id]
  | object horder _ ih => rw [settle, settleMembers_of_settled ih, horder.sortMembers_eq]
  | _ => rfl

theorem same_settle (v : Json) : Same v (settle v) := by
  induction v using parts_induction with
  | array items ih =>
    rw [settle, settleItems_eq_map]
    refine .array (List.length_map ..).symm fun i v v' hv hv' => ?_
    rw [List.getElem?_map, hv] at hv'
    obtain rfl := Option.some.inj hv'
    exact ih v (List.mem_of_getElem? hv)
  | object members ih =>
    have hget : ∀ k, (object (sortMembers (settleMembers members))).get? k =
        ((object members).get? k).map settle := fun k => by
      rw [← get?_settleMembers]
      ext w
      rw [(inOrder_sortMembers _).get?_eq_some_iff, mem_sortMembers]
    refine .object (fun k => by rw [hget, Option.isSome_map]) fun k v v' hv hv' => ?_
    rw [hget, hv] at hv'
    obtain rfl := Option.some.inj hv'
    exact ih _ (mem_of_get? hv)
  | _ => exact .refl _

theorem Bounded.settle {p : UInt64 → Prop} {room : Nat} (h : Bounded p room v) :
    Bounded p room (settle v) := by
  induction h with
  | null => exact .null
  | bool b => exact .bool b
  | integer hlow hhigh => exact .integer hlow hhigh
  | double hbits => exact .double hbits
  | string t => exact .string t
  | array _ ih =>
    rw [Json.settle, settleItems_eq_map]
    refine .array fun v hv => ?_
    obtain ⟨u, hu, rfl⟩ := List.mem_map.mp hv
    exact ih u hu
  | object _ ih =>
    refine .object fun m hm => ?_
    obtain ⟨v, hv, hw⟩ := mem_sortMembers_settleMembers.mp hm
    exact hw ▸ ih _ (mem_of_get? hv)

end

end IncrementalBuild.Json
