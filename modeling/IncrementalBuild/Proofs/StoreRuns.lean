import IncrementalBuild.Proofs.Identities
import IncrementalBuild.Proofs.StoreSteps
/-!
# Runs of a store

From the empty store on, operations keep a store in agreement with the cache that the same
operations lead to, as long as ids of 32 bits are not used up: it answers and shows the same. So
the parts of the store agree with each other, although each operation brings them up to date one
by one: the table of paths, the slots and their marks, and the lists of ids. An id never stands
for two paths, and a path keeps its id until it is forgotten.
-/
namespace IncrementalBuild

/-- The files of a slot: the committed one, and the staged one beside it if there is one. -/
def Slot.files (e : Slot) : List SourceFile := e.file :: e.pending.toList

namespace Store

variable {s : Store} {c : Cache}

def apply (s : Store) : CacheStep → Store
  | .upsert p content => (s.stage p content).2
  | .markExternal p => (s.markExternal p).2
  | .reset => s.reset.2
  | .rollback => s.rollback.2
  | .prune keep => (s.prune keep).2

def runSteps (steps : List CacheStep) : Store := steps.foldl apply empty

/-! ## Agreement over a run -/

theorem Agrees.apply (h : s.Agrees c) (hc : c.Sound) (hroom : c.nextId < UInt32.size)
    (step : CacheStep) : (s.apply step).Agrees (c.apply step) := by
  cases step with
  | upsert p content => exact (h.stage hc.toWellFormed hroom p content).2
  | markExternal p => exact (h.markExternal hc.toWellFormed p).2
  | reset => exact h.commit hc.toWellFormed
  | rollback => exact (h.rollback hc.toWellFormed hc.checkpoint).2
  | prune keep => exact (h.prune hc keep).2

theorem length_enlist (s : Store) (id : FileId) :
    (s.enlist id).slots.length = s.slots.length := by
  obtain ⟨slots, hlength, heq⟩ := s.enlist_eq id
  rw [heq, hlength]

theorem length_forget (s : Store) (p : Path) (id : FileId) :
    (s.forget p id).slots.length = s.slots.length := by
  unfold forget
  cases s.slot? id with
  | none => rfl
  | some e => exact List.length_set ..

theorem length_forgetAll (s : Store) (doomed : List (Path × FileId)) :
    (doomed.foldl (fun s x => s.forget x.1 x.2) s).slots.length = s.slots.length := by
  induction doomed generalizing s with
  | nil => rfl
  | cons x doomed ih => exact (ih (s.forget x.1 x.2)).trans (s.length_forget x.1 x.2)

/-- How many slots an operation adds. -/
def inserts (s : Store) : CacheStep → Nat
  | .upsert p _ => if (s.idOf? p.normalize).isNone then 1 else 0
  | _ => 0

/-- No operation takes a slot away: the slots count what was ever inserted. -/
theorem length_apply (s : Store) (step : CacheStep) :
    (s.apply step).slots.length = s.slots.length + s.inserts step := by
  cases step with
  | upsert p content =>
    show (s.stage p content).2.slots.length = s.slots.length + if _ then _ else _
    unfold stage
    dsimp only
    rw [length_enlist]
    cases s.idOf? p.normalize with
    | none => exact List.length_append ..
    | some id => exact List.length_modify ..
  | markExternal p =>
    show (s.markExternal p).2.slots.length = _
    unfold markExternal
    split
    · rfl
    · split
      · rfl
      · exact List.length_modify ..
  | reset =>
    show s.commit.slots.length = _
    simp [commit, inserts]
  | rollback =>
    show s.rollback.2.slots.length = _
    unfold rollback
    cases s.checkpoint with
    | none => rfl
    | some k => simp [inserts]
  | prune keep =>
    show (s.prune keep).2.slots.length = _
    have hforget := length_forgetAll { s with checkpoint := none }
    unfold prune
    dsimp only
    split
    · exact hforget _
    · exact (length_modifyEach ..).trans (hforget _)

theorem length_le_foldl (s : Store) (steps : List CacheStep) :
    s.slots.length ≤ (steps.foldl apply s).slots.length := by
  induction steps generalizing s with
  | nil => exact Nat.le_refl _
  | cons step steps ih =>
    exact Nat.le_trans (s.length_apply step ▸ Nat.le_add_right ..) (ih (s.apply step))

theorem Agrees.foldl (h : s.Agrees c) (hc : c.Sound) {steps : List CacheStep}
    (hroom : (steps.foldl Store.apply s).slots.length < UInt32.size) :
    (steps.foldl Store.apply s).Agrees (steps.foldl Cache.apply c) := by
  induction steps generalizing s c with
  | nil => exact h
  | cons step steps ih =>
    have hnext : c.nextId < UInt32.size :=
      h.length ▸ Nat.lt_of_le_of_lt (s.length_le_foldl (step :: steps)) hroom
    exact ih (h.apply hc hnext step) (hc.apply step) hroom

/-- As long as the slots do not use up the ids, a run leads to a store and a cache that agree. -/
theorem runSteps_agrees (steps : List CacheStep)
    (hroom : (runSteps steps).slots.length < UInt32.size) :
    (runSteps steps).Agrees (Cache.runSteps steps) :=
  empty_agrees.foldl Cache.empty_sound hroom

/-! ## The parts of a store -/

/-- The parts of a store agree: the table of paths and the slots, the two lists of ids and the
marks in the slots, the files and what is computed from their contents. -/
structure Consistent (s : Store) : Prop where
  pathsOnce : (s.byPath.map Prod.fst).Nodup
  index : ∀ p id, s.idOf? p = some id ↔
    ∃ e, s.slot? id = some e ∧ ∀ f ∈ e.files, f.path = p ∧ f.id = id
  named : ∀ id e, s.slot? id = some e → ∀ f ∈ e.files, f.path = e.file.path ∧ f.id = id
  normal : ∀ p id, s.idOf? p = some id → p.IsNormal
  stagedOnce : s.staged.Nodup
  staged : ∀ id, id ∈ s.staged ↔ ∃ e, s.slot? id = some e ∧ e.staged = true
  membersOnce : s.members.Nodup
  members : ∀ id, id ∈ s.members ↔ ∃ e, s.slot? id = some e ∧ e.inCycle = true
  ranks : ∀ id e, s.slot? id = some e → e.inCycle = true → s.members[e.rank]? = some id
  outside : ∀ id e, s.slot? id = some e → e.inCycle = false → e.rank = Slot.nowhere
  pending : ∀ id e, s.slot? id = some e → e.pending.isSome →
    e.staged = true ∧ e.committed.isSome
  committed : ∀ id e, s.slot? id = some e → ∀ hash, e.committed = some hash →
    hash = ContentHash.ofText e.file.content
  made : ∀ id e, s.slot? id = some e → ∀ f ∈ e.files, f.Made

section
variable (h : s.Agrees c) (hc : c.WellFormed)
include h hc

theorem Agrees.slot?_eq_some_iff {id : FileId} {e : Slot} :
    s.slot? id = some e ↔ ∃ x ∈ c.entries, x.id = id ∧ x.slot = e := by
  rw [h.slot, Option.map_eq_some_iff]
  simp only [hc.entry?_eq_some_iff, and_assoc]

theorem Agrees.idOf?_eq_some_iff {p : Path} {id : FileId} :
    s.idOf? p = some id ↔ ∃ e ∈ c.entries, e.path = p ∧ e.id = id := by
  rw [h.idOf?_eq]
  exact hc.idOf?_eq_some_iff

theorem Agrees.rank_of_inCycle {e : Entry} (he : e ∈ c.entries) (hin : e.inCycle = true) :
    s.members[e.slot.rank]? = some e.id := by
  obtain ⟨rank, hrank⟩ := Option.isSome_iff_exists.mp hin
  have hplace : c.members.idxOf? e.id = some rank := (hc.ranks e he).symm.trans hrank
  obtain ⟨hlt, hid, _⟩ := List.idxOf?_eq_some_iff.mp hplace
  rw [h.members, show e.slot.rank = rank from congrArg (·.getD Slot.nowhere) hrank,
    List.getElem?_eq_getElem hlt, hid]

theorem Agrees.consistent (hnormal : c.Normal) : s.Consistent where
  pathsOnce := by
    rw [h.byPath, List.map_map]
    exact hc.paths
  index p id := by
    rw [h.idOf?_eq_some_iff hc]
    constructor
    · rintro ⟨e, he, rfl, rfl⟩
      exact ⟨e.slot, (h.slot?_eq_some_iff hc).mpr ⟨e, he, rfl, rfl⟩, fun f hf =>
        ((hc.entries e he).name_of_mem_files hf).symm⟩
    · rintro ⟨_, hslot, hfiles⟩
      obtain ⟨e, he, hid, rfl⟩ := (h.slot?_eq_some_iff hc).mp hslot
      exact ⟨e, he, (hfiles e.file List.mem_cons_self).1, hid⟩
  named id _ hslot f hf := by
    obtain ⟨e, he, rfl, rfl⟩ := (h.slot?_eq_some_iff hc).mp hslot
    exact ((hc.entries e he).name_of_mem_files hf).symm
  normal p id hp := by
    obtain ⟨e, he, rfl, _⟩ := (h.idOf?_eq_some_iff hc).mp hp
    exact hnormal e he
  stagedOnce := h.staged ▸ hc.stagedNodup
  staged id := by
    rw [h.staged, hc.staged]
    simp only [h.slot?_eq_some_iff hc]
    constructor
    · rintro ⟨e, he, rfl, hstaged⟩
      exact ⟨e.slot, ⟨e, he, rfl, rfl⟩, hstaged⟩
    · rintro ⟨_, ⟨e, he, rfl, rfl⟩, hstaged⟩
      exact ⟨e, he, rfl, hstaged⟩
  membersOnce := h.members ▸ hc.membersNodup
  members id := by
    rw [h.members]
    simp only [h.slot?_eq_some_iff hc]
    constructor
    · intro hid
      obtain ⟨e, he, rfl⟩ := hc.members id hid
      exact ⟨e.slot, ⟨e, he, rfl, rfl⟩, (hc.member_iff he).mp hid⟩
    · rintro ⟨_, ⟨e, he, rfl, rfl⟩, hin⟩
      exact (hc.member_iff he).mpr hin
  ranks id _ hslot hin := by
    obtain ⟨e, he, rfl, rfl⟩ := (h.slot?_eq_some_iff hc).mp hslot
    exact h.rank_of_inCycle hc he hin
  outside id _ hslot hout := by
    obtain ⟨e, he, rfl, rfl⟩ := (h.slot?_eq_some_iff hc).mp hslot
    have hnone : e.rank = none := Option.isNone_iff_eq_none.mp (Option.isSome_eq_false_iff.mp hout)
    exact congrArg (·.getD Slot.nowhere) hnone
  pending id _ hslot := by
    obtain ⟨e, he, rfl, rfl⟩ := (h.slot?_eq_some_iff hc).mp hslot
    exact (hc.entries e he).beside
  committed id _ hslot hash hcommitted := by
    obtain ⟨e, he, rfl, rfl⟩ := (h.slot?_eq_some_iff hc).mp hslot
    exact ((hc.entries e he).committed hash hcommitted).trans (hc.entries e he).file.hash
  made id _ hslot f hf := by
    obtain ⟨e, he, rfl, rfl⟩ := (h.slot?_eq_some_iff hc).mp hslot
    exact (hc.entries e he).made_of_mem_files hf

end

theorem idOf?_stage (s : Store) (p : Path) (content : Text) :
    (s.stage p content).2.idOf? p.normalize = some (s.stage p content).1.id := by
  have henlist : ∀ (s : Store) (id : FileId),
      (s.enlist id).idOf? p.normalize = s.idOf? p.normalize := by
    intro s id
    obtain ⟨_, _, heq⟩ := s.enlist_eq id
    rw [heq]
    rfl
  unfold stage
  dsimp only
  rw [henlist]
  cases hp : s.idOf? p.normalize with
  | some id => exact hp
  | none =>
    have hnone : s.byPath.find? (·.1 == p.normalize) = none := Option.map_eq_none_iff.mp hp
    simp [insert, idOf?, List.find?_append, hnone]

/-- In every store that operations lead to before the ids are used up the parts agree. Over the
whole run an id never stands for two paths, also when the first one was forgotten since, and a path
keeps the id that staging has answered for it until a prune forgets it. -/
theorem runSteps_consistent (steps more : List CacheStep)
    (hroom : (runSteps (steps ++ more)).slots.length < FileId.dummy) :
    (runSteps steps).Consistent ∧
      (∀ id e, (runSteps steps).slot? id = some e → id < FileId.dummy) ∧
      (∀ p q id, (runSteps steps).idOf? p = some id →
        (runSteps (steps ++ more)).idOf? q = some id → q = p) ∧
      (∀ p id, (runSteps steps).idOf? p = some id → (∀ s ∈ more, s.Spares p) →
        (runSteps (steps ++ more)).idOf? p = some id) ∧
      ∀ p content, ((runSteps steps).stage p content).2.idOf? p.normalize =
        some ((runSteps steps).stage p content).1.id := by
  have hwords : FileId.dummy < UInt32.size := by decide
  have hfewer : (runSteps steps).slots.length ≤ (runSteps (steps ++ more)).slots.length := by
    rw [runSteps, runSteps, List.foldl_append]
    exact length_le_foldl ..
  have h := runSteps_agrees steps (Nat.lt_of_le_of_lt hfewer (Nat.lt_trans hroom hwords))
  have hmore := runSteps_agrees (steps ++ more) (Nat.lt_trans hroom hwords)
  have hc := Cache.runSteps_sound steps
  refine ⟨h.consistent hc.toWellFormed (Cache.runSteps_normal steps), fun id e hslot => ?_,
    fun p q id hp hq => ?_, fun p id hp hs => ?_, fun p content => idOf?_stage _ p content⟩
  · obtain ⟨x, hx, rfl, _⟩ := (h.slot?_eq_some_iff hc.toWellFormed).mp hslot
    exact Nat.lt_trans (h.length ▸ hc.fresh x hx) (Nat.lt_of_le_of_lt hfewer hroom)
  · rw [h.idOf?_eq] at hp
    rw [hmore.idOf?_eq] at hq
    exact Cache.idOf?_unique steps more hp hq
  · rw [h.idOf?_eq] at hp
    rw [hmore.idOf?_eq]
    exact Cache.idOf?_spared steps more hp hs

/-- A path that a prune forgets comes back under the next id, and the other one keeps its own. -/
theorem ids_after_prune :
    let steps : List CacheStep := [.upsert "/a.ts" "1".toList, .upsert "/b.ts" "2".toList, .reset]
    let more : List CacheStep := [.prune ["/b.ts"], .upsert "/a.ts" "1".toList]
    (runSteps (steps ++ more)).slots.length < FileId.dummy ∧
      (runSteps steps).Consistent ∧
      (runSteps steps).idOf? "/a.ts" = some 0 ∧
      (runSteps (steps ++ more)).idOf? "/a.ts" = some 2 ∧
      (runSteps (steps ++ more)).idOf? "/b.ts" = some 1 := by
  intro steps more
  have hroom : (runSteps (steps ++ more)).slots.length < FileId.dummy := by decide +kernel
  obtain ⟨hconsistent, _, _, hspared, _⟩ := runSteps_consistent steps more hroom
  refine ⟨hroom, hconsistent, by decide +kernel, by decide +kernel,
    hspared "/b.ts" 1 (by decide +kernel) ?_⟩
  simp [more, CacheStep.Spares]
  decide

/-! ## What a store shows -/

/-- A store shows what a cache shows, and its next cycle reports the same changes. -/
structure Shows (s : Store) (c : Cache) : Prop where
  file : ∀ id, s.file? id = c.file? id
  get : ∀ p, s.get? p = c.get? p
  files : s.files = c.files
  stagedFiles : s.stagedFiles = c.stagedFiles
  stagedFile : ∀ id, s.stagedFile? id = c.stagedFile? id
  isStaged : ∀ p, s.isStaged p = c.isStaged p
  contains : ∀ p, s.contains p = c.contains p
  hasChanged : ∀ p, s.hasChanged p = c.hasChanged p
  position : ∀ id, s.position? id = c.position? id
  changes : s.changes = c.changes

/-- A path is found as it is written only if its normal form is found. -/
theorem Agrees.lookup?_eq (h : s.Agrees c) (hc : c.WellFormed) (hnormal : c.Normal) (p : Path) :
    s.lookup? p = (c.lookup? p).map Entry.slot := by
  have hnormalized : (s.idOf? p.normalize).bind s.slot? = (c.lookup? p).map Entry.slot := by
    rw [h.idOf?_eq]
    show ((c.lookup? p).map Entry.id).bind _ = _
    cases hl : c.lookup? p with
    | none => rfl
    | some e =>
      obtain ⟨he, _⟩ := hc.lookup?_eq_some_iff.mp hl
      exact (h.slot e.id).trans (congrArg _ (hc.entry?_of_mem he))
  rw [lookup?, ← hnormalized]
  cases hwritten : s.byPath.find? (·.1.same p) with
  | none => rfl
  | some x =>
    have hx := List.mem_of_find?_eq_some hwritten
    have hsame : x.1.same p = true := by simpa using List.find?_some hwritten
    rw [h.byPath] at hx
    obtain ⟨e, he, rfl⟩ := List.mem_map.mp hx
    have hpath : e.path = p.normalize := by
      rw [← hnormal e he, Path.normalize, Path.same_iff.mp hsame, Path.normalize]
    have hid : s.idOf? p.normalize = some e.id := by
      rw [h.idOf?_eq, (find?_key_eq_some_iff hc.paths).mpr ⟨he, hpath⟩, Option.map_some]
    rw [hid]

theorem Agrees.shows (h : s.Agrees c) (hc : c.WellFormed) (hnormal : c.Normal) : s.Shows c where
  file id := by
    rw [Store.file?, h.slot, Cache.file?, Option.map_map]
    rfl
  get p := by
    rw [Store.get?, h.lookup?_eq hc hnormal, Cache.get?, Option.map_map]
    rfl
  files := by
    rw [Store.files, h.filterMap_slot?, h.members, List.map_map]
    rfl
  stagedFiles := by
    rw [Store.stagedFiles, h.filterMap_slot?, h.staged, List.map_map]
    rfl
  stagedFile id := by
    rw [Store.stagedFile?, h.slot, Cache.stagedFile?, Option.filter_map, Option.map_map]
    rfl
  isStaged p := by
    rw [Store.isStaged, h.lookup?_eq hc hnormal, Cache.isStaged, Option.any_map]
    rfl
  contains p := by
    rw [Store.contains, h.lookup?_eq hc hnormal, Cache.contains, Option.any_map]
    rfl
  hasChanged p := by
    rw [Store.hasChanged, h.lookup?_eq hc hnormal, Cache.hasChanged, Option.any_map, h.cycle]
    rfl
  position id := by
    rw [Store.position?, h.slot, Cache.position?]
    cases c.entry? id with
    | none => rfl
    | some e => rcases e with ⟨_, _, _, _, _, _ | rank, _⟩ <;> rfl
  changes := h.changes_eq

/-- After any operations a store shows what the cache after the same operations shows. -/
theorem runSteps_shows (steps : List CacheStep)
    (hroom : (runSteps steps).slots.length < UInt32.size) :
    (runSteps steps).Shows (Cache.runSteps steps) :=
  (runSteps_agrees steps hroom).shows (Cache.runSteps_sound steps).toWellFormed
    (Cache.runSteps_normal steps)

end Store

end IncrementalBuild
