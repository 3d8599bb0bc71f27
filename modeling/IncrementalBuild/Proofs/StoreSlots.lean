import IncrementalBuild.Proofs.CacheCycle
import IncrementalBuild.Source.Store
/-!
# Slots and entries

A store agrees with a cache if each entry stands in the slot of its id, all other slots are empty,
and the table of paths has the path and the id of each entry. What is stated here: what a loop over
slots does to each of them, and that every operation does to a store what it does to a cache.
-/
namespace IncrementalBuild

/-! ## The slot of an entry -/

def Entry.slot (e : Entry) : Slot :=
  { file := e.file
    pending := e.pending
    external := e.external
    committed := e.committed
    staged := e.staged
    inCycle := e.inCycle
    rank := e.rank.getD Slot.nowhere
    changedIn := e.changedIn }

def Saved.slot (s : Saved) : SavedSlot :=
  { id := s.id
    committed := s.committed
    inCycle := s.rank.isSome
    rank := s.rank.getD Slot.nowhere
    changedIn := s.changedIn
    external := s.external
    file := s.file }

def Checkpoint.slots (k : Checkpoint) : SlotCheckpoint :=
  ⟨k.cycle, k.members, k.entries.map Saved.slot⟩

namespace Entry

variable (e : Entry)

theorem slot_stage (content : Text) : (e.stage content).slot = e.slot.stage content := by
  rcases e with ⟨file, _ | pending, external, _ | hash, staged, rank, changedIn⟩
  · rfl
  · show slot (if ContentHash.ofText content = file.hash then _ else _) = _
    rw [apply_ite slot]
    rfl
  · rfl
  · rfl

theorem slot_setExternal (external : Bool) :
    (e.setExternal external).slot = e.slot.setExternal external := by
  rcases e with ⟨file, _ | pending, _, _ | hash, staged, rank, changedIn⟩ <;> rfl

/-- The loops of a reset make of the slot of a staged file what committing makes of the entry. The
loop over the members comes in between, or leaves the slot alone. -/
theorem slot_commit (cycle rank : Nat) :
    (e.commit cycle rank).slot = (e.slot.report cycle).enter rank ∧
      (e.commit cycle rank).slot = (e.slot.report cycle).leave.enter rank := by
  have hverdict : e.slot.verdict = e.verdict := rfl
  unfold Slot.report commit
  rw [hverdict]
  split <;> exact ⟨rfl, rfl⟩

theorem slot_rank {rank : Option Nat} (h : rank.isSome = e.rank.isSome) :
    ({ e with rank } : Entry).slot = (rank.map fun rank => { e.slot with rank }).getD e.slot := by
  rcases e with ⟨file, pending, external, committed, staged, _ | old, changedIn⟩ <;> cases rank
  · rfl
  · exact nomatch h
  · exact nomatch h
  · rfl

end Entry

/-! ## Loops over slots -/

/-- The first place of a key in a list, with what is made of the place. -/
theorem find?_zipIdx {κ α : Type} [DecidableEq κ] (g : Nat → α) (keys : List κ) (k : κ)
    (start : Nat) :
    ((keys.zipIdx start).map fun x => (x.1, g x.2)).find? (·.1 == k) =
      (keys.idxOf? k).map fun i => (k, g (start + i)) := by
  induction keys generalizing start with
  | nil => rfl
  | cons key keys ih =>
    rw [List.zipIdx_cons, List.map_cons, List.find?_cons, List.idxOf?_cons]
    by_cases hk : key = k
    · simp [hk]
    · rw [ih, beq_eq_false_iff_ne.mpr hk, if_neg Bool.false_ne_true, Option.map_map]
      simp only [Function.comp_def, Nat.add_assoc, Nat.add_comm 1]

namespace Store

section
variable (s : Store) (id : FileId)

theorem slot?_modify (f : Slot → Slot) (j : FileId) :
    (s.modify id f).slot? j = if j = id then (s.slot? j).map f else s.slot? j := by
  unfold slot? modify
  rw [List.getElem?_modify]
  by_cases hj : j = id
  · subst hj
    cases s.slots[j]? <;> simp
  · cases s.slots[j]? <;> simp [hj, Ne.symm hj]

theorem modifyEach_eq (changes : List (FileId × (Slot → Slot))) : ∃ slots,
    s.modifyEach changes = { s with slots } ∧ slots.length = s.slots.length := by
  induction changes generalizing s with
  | nil => exact ⟨s.slots, rfl, rfl⟩
  | cons change changes ih =>
    obtain ⟨slots, heq, hlength⟩ := ih (s.modify change.1 change.2)
    exact ⟨slots, heq, hlength.trans (List.length_modify ..)⟩

section
variable (changes : List (FileId × (Slot → Slot)))

@[simp] theorem length_modifyEach : (s.modifyEach changes).slots.length = s.slots.length := by
  obtain ⟨slots, heq, hlength⟩ := s.modifyEach_eq changes
  rw [heq, hlength]

@[simp] theorem modifyEach_byPath : (s.modifyEach changes).byPath = s.byPath := by
  obtain ⟨slots, heq, _⟩ := s.modifyEach_eq changes
  rw [heq]

@[simp] theorem modifyEach_cycle : (s.modifyEach changes).cycle = s.cycle := by
  obtain ⟨slots, heq, _⟩ := s.modifyEach_eq changes
  rw [heq]

@[simp] theorem modifyEach_retired : (s.modifyEach changes).retired = s.retired := by
  obtain ⟨slots, heq, _⟩ := s.modifyEach_eq changes
  rw [heq]

@[simp] theorem modifyEach_checkpoint : (s.modifyEach changes).checkpoint = s.checkpoint := by
  obtain ⟨slots, heq, _⟩ := s.modifyEach_eq changes
  rw [heq]

end

theorem slot?_modifyEach {changes : List (FileId × (Slot → Slot))}
    (h : (changes.map Prod.fst).Nodup) : (s.modifyEach changes).slot? id =
      match changes.find? (·.1 == id) with
      | some (_, f) => (s.slot? id).map f
      | none => s.slot? id := by
  induction changes generalizing s with
  | nil => rfl
  | cons change changes ih =>
    obtain ⟨hnew, hrest⟩ := List.nodup_cons.mp h
    show ((s.modify change.1 change.2).modifyEach changes).slot? id = _
    rw [ih (s.modify change.1 change.2) hrest, slot?_modify, List.find?_cons]
    by_cases hid : id = change.1
    · have hnone : changes.find? (·.1 == id) = none :=
        find?_key_eq_none_iff.mpr fun c hc heq => hnew (hid ▸ heq ▸ List.mem_map_of_mem hc)
      rw [hnone, if_pos hid, hid, beq_self_eq_true]
    · rw [if_neg hid, beq_eq_false_iff_ne.mpr (Ne.symm hid)]

/-- A loop that makes the same change to all slots of a list. -/
theorem slot?_modifyEach_map {ids : List FileId} (h : ids.Nodup) (f : Slot → Slot) :
    (s.modifyEach (ids.map (·, f))).slot? id =
      if id ∈ ids then (s.slot? id).map f else s.slot? id := by
  have hkeys : (ids.map (·, f)).map Prod.fst = ids := by
    rw [List.map_map]
    exact List.map_id ids
  rw [slot?_modifyEach s id (hkeys.symm ▸ h), List.find?_map]
  by_cases hin : id ∈ ids
  · have hfind : ids.find? ((·.1 == id) ∘ (·, f)) = some id :=
      find?_key_of_mem (by rwa [List.map_id']) hin
    rw [hfind, if_pos hin]
    rfl
  · have hfind : ids.find? ((·.1 == id) ∘ (·, f)) = none :=
      find?_key_eq_none_iff.mpr fun i hi heq => hin (heq ▸ hi)
    rw [hfind, if_neg hin]
    rfl

theorem slot?_modifyEach_byPlace {ids : List FileId} (h : ids.Nodup) (f : Nat → Slot → Slot) :
    (s.modifyEach (byPlace ids f)).slot? id =
      match ids.idxOf? id with
      | some rank => (s.slot? id).map (f rank)
      | none => s.slot? id := by
  have hkeys : (byPlace ids f).map Prod.fst = ids := by
    rw [byPlace, List.map_map]
    exact List.zipIdx_map_fst 0 ids
  have hfind : (byPlace ids f).find? (·.1 == id) = _ := find?_zipIdx f ids id 0
  rw [slot?_modifyEach s id (hkeys.symm ▸ h), hfind]
  cases ids.idxOf? id with
  | none => rfl
  | some rank => rw [Option.map_some, Nat.zero_add]

end

/-! ## Agreement -/

/-- The parts of a store are those of a cache, with the entries in the slots of their ids. Each
entry is saved once for a rollback. -/
structure Agrees (s : Store) (c : Cache) : Prop where
  length : s.slots.length = c.nextId
  slot : ∀ id, s.slot? id = (c.entry? id).map Entry.slot
  byPath : s.byPath = c.entries.map fun e => (e.path, e.id)
  staged : s.staged = c.staged
  members : s.members = c.members
  cycle : s.cycle = c.cycle
  retired : ∀ p, s.retiredVersion? p = c.retiredVersion? p
  checkpoint : s.checkpoint = c.checkpoint.map Checkpoint.slots
  once : ∀ k, c.checkpoint = some k → (k.entries.map Saved.id).Nodup

theorem empty_agrees : empty.Agrees .empty where
  length := rfl
  slot _ := rfl
  byPath := rfl
  staged := rfl
  members := rfl
  cycle := rfl
  retired _ := rfl
  checkpoint := rfl
  once _ hk := nomatch hk

section
variable {s : Store} {c : Cache} (h : s.Agrees c)
include h

theorem Agrees.idOf?_eq (p : Path) :
    s.idOf? p = (c.entries.find? (·.path == p)).map Entry.id := by
  rw [idOf?, h.byPath, List.find?_map, Option.map_map]
  rfl

theorem Agrees.filterMap_slot? (ids : List FileId) :
    ids.filterMap s.slot? = (ids.filterMap c.entry?).map Entry.slot := by
  rw [List.map_filterMap]
  exact congrArg (ids.filterMap ·) (funext h.slot)

theorem Agrees.isCommitted_eq (id : FileId) :
    (!(s.slot? id).any Slot.isCommitted) = c.differs id := by
  rw [h.slot, Cache.differs]
  cases c.entry? id <;> rfl

end

section
variable {s s' : Store} {c c' : Cache} (h : s.Agrees c) {g : Entry → Entry}
  (hentries : c'.entries = c.entries.map g)
  (hg : ∀ e ∈ c.entries, (g e).id = e.id ∧ (g e).path = e.path)
include h hentries hg

theorem Agrees.slot_of_map (hc : c.WellFormed)
    (hnone : ∀ id, s.slot? id = none → s'.slot? id = none)
    (hslot : ∀ e ∈ c.entries, s.slot? e.id = some e.slot → s'.slot? e.id = some (g e).slot)
    (id : FileId) : s'.slot? id = (c'.entry? id).map Entry.slot := by
  rw [Cache.entry?, hentries, find?_key_map fun e he => (hg e he).1]
  cases hid : c.entries.find? (Entry.id · == id) with
  | none => exact hnone id ((h.slot id).trans (congrArg _ hid))
  | some e =>
    have hold : s.slot? id = some e.slot := (h.slot id).trans (congrArg _ hid)
    obtain ⟨he, rfl⟩ := hc.entry?_eq_some_iff.mp hid
    exact hslot e he hold

theorem Agrees.byPath_of_map (hbyPath : s'.byPath = s.byPath) :
    s'.byPath = c'.entries.map fun e => (e.path, e.id) := by
  rw [hbyPath, h.byPath, hentries, List.map_map]
  exact List.map_congr_left fun e he => Prod.ext (hg e he).2.symm (hg e he).1.symm

end

end Store

end IncrementalBuild
