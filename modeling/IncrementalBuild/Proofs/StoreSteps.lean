import IncrementalBuild.Proofs.ContentVersions
import IncrementalBuild.Proofs.FileLists
import IncrementalBuild.Proofs.StoreSlots
/-!
# Operations on a store

Every operation on a store does what it does to the cache that the store agrees with, and gives the
same answer. Staging, marking and the loops of a reset or a rollback change slots as the cache
changes entries; a prune empties slots.
-/
namespace IncrementalBuild.Store

variable {s : Store} {c : Cache}

/-! ## Staging -/

theorem slot_restage (e : Entry) (content : Text) : (e.restage content).slot =
    { (e.slot.stage content).setExternal false with staged := true } := by
  rw [← Entry.slot_stage, ← Entry.slot_setExternal]
  rfl

/-- Staging changes one slot, and puts its id at the end of the staged list if it was not there. -/
theorem slot?_enlist (s : Store) (id j : FileId) : (s.enlist id).slot? j =
    if j = id then (s.slot? j).map fun e => { e.setExternal false with staged := true }
    else s.slot? j := by
  unfold enlist
  dsimp only
  split <;> exact slot?_modify s id _ j

theorem enlist_eq (s : Store) (id : FileId) : ∃ slots, slots.length = s.slots.length ∧
    s.enlist id = { s with
      slots
      staged := if (s.slot? id).any (!·.staged) then s.staged ++ [id] else s.staged } := by
  unfold enlist
  dsimp only
  split
  · exact ⟨_, List.length_modify .., rfl⟩
  · exact ⟨_, List.length_modify .., rfl⟩

section
variable (h : s.Agrees c) (hc : c.WellFormed)
include h hc

theorem Agrees.restageAt {e : Entry} (he : e ∈ c.entries) (content : Text) :
    ((s.modify e.id (·.stage content)).enlist e.id).Agrees (c.restageAt e content) := by
  have hslot : s.slot? e.id = some e.slot := by rw [h.slot, hc.entry?_of_mem he]; rfl
  have hstaged : ((s.modify e.id (·.stage content)).slot? e.id).any (!·.staged) = !e.staged := by
    rw [slot?_modify, if_pos rfl, hslot]
    show (!(e.slot.stage content).staged) = _
    rw [← Entry.slot_stage]
    exact congrArg not (e.stage_staged content)
  obtain ⟨slots, hlength, heq⟩ := enlist_eq (s.modify e.id (·.stage content)) e.id
  have hg : ∀ x ∈ c.entries, (x.changeAt e.id (·.restage content)).id = x.id ∧
      (x.changeAt e.id (·.restage content)).path = x.path := fun x _ =>
    (Entry.Keeps.changeAt (Entry.restage_keeps content) e.id x).name
  refine ⟨?_, h.slot_of_map rfl hg hc (fun id hid => ?_) (fun x hx hold => ?_),
    h.byPath_of_map rfl hg ?_, ?_, ?_, ?_, ?_, ?_, h.once⟩
  · rw [heq]
    exact hlength.trans ((List.length_modify ..).trans h.length)
  · rw [slot?_enlist, slot?_modify, hid]
    split <;> rfl
  · rw [slot?_enlist, slot?_modify, hold]
    by_cases hx : x.id = e.id
    · rw [if_pos hx, if_pos hx, ← hx, Entry.changeAt_self, slot_restage]
      rfl
    · rw [if_neg hx, if_neg hx, Entry.changeAt_of_ne hx]
  · rw [heq]
    rfl
  · rw [heq, hstaged]
    show (if _ then s.staged ++ [e.id] else s.staged) = if e.staged then _ else _
    rw [h.staged]
    cases e.staged <;> rfl
  · rw [heq]
    exact h.members
  · rw [heq]
    exact h.cycle
  · rw [heq]
    exact h.retired
  · rw [heq]
    exact h.checkpoint

omit hc in
theorem Agrees.insert_eq (hroom : c.nextId < UInt32.size) (p : Path) (content : Text) :
    s.insert p content = (c.nextId, { s with
      slots := s.slots ++ [some (.new (c.newEntry p content).file)]
      byPath := s.byPath ++ [(p, c.nextId)]
      retired := s.retired.filter (·.1 != p) }) := by
  simp only [insert, h.length, Nat.mod_eq_of_lt hroom, h.retired p]
  rfl

omit hc in
theorem Agrees.slot?_insert (hroom : c.nextId < UInt32.size) (p : Path) (content : Text)
    (id : FileId) : (s.insert p content).2.slot? id =
      if id = c.nextId then some (.new (c.newEntry p content).file) else s.slot? id := by
  rw [h.insert_eq hroom]
  show (s.slots ++ [some _])[id]?.join = _
  rcases Nat.lt_trichotomy id c.nextId with hlt | rfl | hgt
  · rw [List.getElem?_append_left (h.length.symm ▸ hlt), if_neg (Nat.ne_of_lt hlt), slot?]
  · rw [← h.length, List.getElem?_concat_length, if_pos rfl]
    rfl
  · have hlength := h.length
    rw [List.getElem?_eq_none (by simp; omega), if_neg (Nat.ne_of_gt hgt), slot?,
      List.getElem?_eq_none (by omega)]

theorem Agrees.stageNew (hroom : c.nextId < UInt32.size) {p : Path} (content : Text) :
    (s.insert p content).1 = c.nextId ∧
      ((s.insert p content).2.enlist c.nextId).Agrees (c.stageNew p content) := by
  have hinsert := h.insert_eq hroom p content
  have hslot := h.slot?_insert hroom p content
  obtain ⟨slots, hlength, heq⟩ := enlist_eq (s.insert p content).2 c.nextId
  have hnew : ((s.insert p content).2.slot? c.nextId).any (!·.staged) = true := by
    rw [hslot, if_pos rfl]
    rfl
  rw [hnew, if_pos rfl] at heq
  refine ⟨congrArg Prod.fst hinsert, ?_, fun id => ?_, ?_, ?_, ?_, ?_, fun q => ?_, ?_, h.once⟩
  · rw [heq]
    show slots.length = c.nextId + 1
    rw [hlength, hinsert, List.length_append, h.length]
    rfl
  · rw [slot?_enlist, hslot, hc.entry?_stageNew content p id]
    by_cases hid : id = c.nextId
    · rw [if_pos hid, if_pos hid, if_pos hid]
      rfl
    · rw [if_neg hid, if_neg hid, if_neg hid, h.slot]
  · rw [heq, hinsert]
    show s.byPath ++ [(p, c.nextId)] = _
    rw [h.byPath, Cache.stageNew, List.map_append]
    rfl
  · rw [heq, hinsert]
    exact congrArg (· ++ [c.nextId]) h.staged
  · rw [heq, hinsert]
    exact h.members
  · rw [heq, hinsert]
    exact h.cycle
  · rw [Cache.retiredVersion?_stageNew, heq, hinsert]
    show ((s.retired.filter (·.1 != p)).find? (·.1 == q)).map (·.2) = _
    rw [find?_key_filter_ne, ← h.retired]
    split <;> rfl
  · rw [heq, hinsert]
    exact h.checkpoint

theorem Agrees.stage (hroom : c.nextId < UInt32.size) (p : Path) (content : Text) :
    (s.stage p content).1 = (c.stage p content).1 ∧
      (s.stage p content).2.Agrees (c.stage p content).2 := by
  have hanswer : ∀ {s' : Store} {id : FileId}, (c.stage p content).1.id = id →
      s'.Agrees (c.stage p content).2 →
      (⟨id, !(s'.slot? id).any Slot.isCommitted⟩ : Staging) = (c.stage p content).1 := by
    rintro s' id rfl hagrees
    rw [hagrees.isCommitted_eq]
    rfl
  obtain ⟨e, he, hpath, hid, heq⟩ | ⟨hno, hid, heq⟩ := hc.stage_cases p content
  · have hknown : s.idOf? p.normalize = some e.id := by
      rw [h.idOf?_eq, (find?_key_eq_some_iff hc.paths).mpr ⟨he, hpath⟩, Option.map_some]
    have hagrees := h.restageAt hc he content
    rw [← heq] at hagrees
    rw [Store.stage, hknown]
    exact ⟨hanswer hid hagrees, hagrees⟩
  · have hunknown : s.idOf? p.normalize = none := by
      rw [h.idOf?_eq, find?_key_eq_none_iff.mpr hno, Option.map_none]
    obtain ⟨hnew, hagrees⟩ := h.stageNew hc hroom (p := p.normalize) content
    rw [← heq, ← hnew] at hagrees
    rw [Store.stage, hunknown]
    exact ⟨hanswer (hid.trans hnew.symm) hagrees, hagrees⟩

theorem Agrees.markExternal (p : Path) : (s.markExternal p).1 = (c.markExternal p).1 ∧
    (s.markExternal p).2.Agrees (c.markExternal p).2 := by
  unfold Store.markExternal Cache.markExternal
  cases hl : c.lookup? p with
  | none =>
    have hunknown : s.idOf? p.normalize = none := (h.idOf?_eq _).trans (congrArg _ hl)
    rw [hunknown]
    exact ⟨rfl, h⟩
  | some e =>
    obtain ⟨he, _⟩ := hc.lookup?_eq_some_iff.mp hl
    have hknown : s.idOf? p.normalize = some e.id := (h.idOf?_eq _).trans (congrArg _ hl)
    have hslot : s.slot? e.id = some e.slot := by rw [h.slot, hc.entry?_of_mem he]; rfl
    have hg : ∀ x ∈ c.entries, (x.changeAt e.id (·.setExternal true)).id = x.id ∧
        (x.changeAt e.id (·.setExternal true)).path = x.path := fun x _ =>
      (Entry.Keeps.changeAt (Entry.setExternal_keeps true) e.id x).name
    simp only [hknown, hslot]
    refine ⟨trivial, (List.length_modify ..).trans h.length,
      h.slot_of_map rfl hg hc (fun id hid => ?_) (fun x hx hold => ?_),
      h.byPath_of_map rfl hg rfl, h.staged, h.members, h.cycle, h.retired, h.checkpoint, h.once⟩
    · rw [slot?_modify, hid]
      split <;> rfl
    · rw [slot?_modify, hold]
      by_cases hx : x.id = e.id
      · rw [if_pos hx, if_pos hx, Entry.slot_setExternal]
        rfl
      · rw [if_neg hx, if_neg hx]

end

/-! ## Committing -/

theorem Agrees.changes_eq (h : s.Agrees c) : s.changes = c.changes := by
  have hpaths : ∀ (entries : List Entry) (v : Verdict),
      ((entries.map Entry.slot).filter (·.verdict = v)).map (·.file.path) =
        (entries.filter (·.verdict = v)).map Entry.path := by
    intro entries v
    rw [List.filter_map, List.map_map]
    rfl
  have hremoved : ∀ entries : List Entry,
      ((entries.map Entry.slot).filter (!·.staged)).map (·.file.path) =
        (entries.filter (!·.staged)).map Entry.path := by
    intro entries
    rw [List.filter_map, List.map_map]
    rfl
  rw [changes, Cache.changes]
  simp only [h.filterMap_slot?, h.staged, h.members, h.cycle, hpaths, hremoved]

theorem nodup_saved (hc : c.WellFormed) : (c.save.entries.map Saved.id).Nodup := by
  have hin : ∀ id ∈ (c.members ++ c.staged).eraseDups, ∃ e ∈ c.entries, e.id = id := by
    intro id hid
    rcases List.mem_append.mp (List.mem_eraseDups.mp hid) with hid | hid
    · exact hc.members id hid
    · exact hc.stagedIn id hid
  have hids : c.save.entries.map Saved.id = (c.members ++ c.staged).eraseDups := by
    rw [Cache.save, List.map_map]
    exact map_key_filterMap_find? hin
  rw [hids]
  exact nodup_eraseDups _

section
variable (h : s.Agrees c) (hc : c.WellFormed)
include h hc

theorem Agrees.save_eq : s.save = c.save.slots := by
  have hsaved : ∀ id, (s.slot? id).map (Slot.save id) =
      ((c.entry? id).map Entry.save).map Saved.slot := by
    intro id
    rw [h.slot]
    cases hid : c.entry? id with
    | none => rfl
    | some e =>
      obtain ⟨_, rfl⟩ := hc.entry?_eq_some_iff.mp hid
      rfl
  simp only [save, h.cycle, h.members, h.staged, hsaved, Cache.save, Checkpoint.slots,
    List.map_filterMap]

theorem Agrees.slot?_commit (id : FileId) : s.commit.slot? id =
    match c.staged.idxOf? id with
    | some rank =>
      (if id ∈ c.members then ((s.slot? id).map (Slot.report (c.cycle + 1))).map Slot.leave
        else (s.slot? id).map (Slot.report (c.cycle + 1))).map (Slot.enter rank)
    | none => if id ∈ c.members then (s.slot? id).map Slot.leave else s.slot? id := by
  let noted := s.modifyEach (s.staged.map (·, Slot.report (s.cycle + 1)))
  let left := noted.modifyEach (s.members.map (·, Slot.leave))
  have hstaged : s.staged.Nodup := h.staged.symm ▸ hc.stagedNodup
  have hmembers : s.members.Nodup := h.members.symm ▸ hc.membersNodup
  show (left.modifyEach (byPlace s.staged Slot.enter)).slot? id = _
  rw [slot?_modifyEach_byPlace left id hstaged, slot?_modifyEach_map noted id hmembers,
    slot?_modifyEach_map s id hstaged, h.staged, h.members, h.cycle]
  cases hr : c.staged.idxOf? id with
  | none =>
    have hin : id ∉ c.staged := List.idxOf?_eq_none_iff.mp hr
    simp only [if_neg hin]
  | some rank =>
    have hin : id ∈ c.staged := List.isSome_idxOf?.mp (hr ▸ rfl)
    simp only [if_pos hin]

theorem Agrees.commit : s.commit.Agrees c.commit := by
  have hg : ∀ e ∈ c.entries, (c.commitEntry e).id = e.id ∧ (c.commitEntry e).path = e.path :=
    fun e he => hc.commitEntry_name he
  have hslot : ∀ e ∈ c.entries, s.slot? e.id = some e.slot →
      s.commit.slot? e.id = some (c.commitEntry e).slot := by
    intro e _ hold
    rw [h.slot?_commit hc, hold]
    unfold Cache.commitEntry
    cases c.staged.idxOf? e.id with
    | none => dsimp only; split <;> rfl
    | some rank =>
      obtain ⟨hstays, hleaves⟩ := e.slot_commit (c.cycle + 1) rank
      dsimp only
      split
      · rw [hleaves]
        rfl
      · rw [hstays]
        rfl
  refine ⟨?_, h.slot_of_map c.commit_entries hg hc (fun id hid => ?_) hslot,
    h.byPath_of_map c.commit_entries hg ?_, rfl, h.staged, congrArg (· + 1) h.cycle, fun p => ?_,
    congrArg some (h.save_eq hc), fun k hk => ?_⟩
  · simp [Store.commit, h.length, Cache.commit]
  · rw [h.slot?_commit hc, hid]
    split <;> split <;> rfl
  · simp [Store.commit]
  · simp only [Store.commit, Store.retiredVersion?, modifyEach_retired]
    exact h.retired p
  · cases hk
    exact nodup_saved hc

end

/-! ## Taking back -/

/-- The first two loops of a rollback take out of a slot what it has of the last cycle and of the
next one. -/
theorem slot_bare (hc : c.WellFormed) {e : Entry} (he : e ∈ c.entries) :
    (if e.id ∈ c.members
      then (if e.id ∈ c.staged then (some e.slot).map Slot.unstage else some e.slot).map Slot.leave
      else if e.id ∈ c.staged then (some e.slot).map Slot.unstage else some e.slot) =
    some ({ e with staged := false, pending := none, rank := none } : Entry).slot := by
  have hunstaged : (if e.id ∈ c.staged then (some e.slot).map Slot.unstage else some e.slot) =
      some ({ e with staged := false, pending := none } : Entry).slot := by
    split
    · rfl
    · next hnot =>
      have hs : e.staged = false := by simpa using mt (hc.staged_iff he).mpr hnot
      rw [← hs, ← hc.pending_of_not_staged he hs]
  rw [hunstaged]
  split
  · rfl
  · next hnot =>
    have hrank : e.rank = none := by
      rw [hc.ranks e he]
      exact List.idxOf?_eq_none_iff.mpr hnot
    rw [hrank]

section
variable (h : s.Agrees c) (hc : c.WellFormed)
include h hc

theorem Agrees.slot?_rollback {k : Checkpoint} (hk : c.checkpoint = some k) (id : FileId) :
    s.rollback.2.slot? id =
      let bare := if id ∈ c.members
        then (if id ∈ c.staged then (s.slot? id).map Slot.unstage else s.slot? id).map Slot.leave
        else if id ∈ c.staged then (s.slot? id).map Slot.unstage else s.slot? id
      match k.entries.find? (·.id == id) with
      | some saved => bare.map (Slot.restore saved.slot)
      | none => bare := by
  have hsaved := h.checkpoint
  rw [hk] at hsaved
  let unstaged := s.modifyEach (s.staged.map (·, Slot.unstage))
  let left := unstaged.modifyEach (s.members.map (·, Slot.leave))
  have hloop : s.rollback.2.slot? id =
      (left.modifyEach (k.slots.slots.map fun e => (e.id, Slot.restore e))).slot? id := by
    rw [Store.rollback, hsaved]
    rfl
  have hkeys : ((k.slots.slots.map fun e => (e.id, Slot.restore e)).map Prod.fst).Nodup := by
    rw [Checkpoint.slots, List.map_map, List.map_map]
    exact h.once k hk
  have hstaged : s.staged.Nodup := h.staged.symm ▸ hc.stagedNodup
  have hmembers : s.members.Nodup := h.members.symm ▸ hc.membersNodup
  have hfind : (k.slots.slots.map fun e => (e.id, Slot.restore e)).find? (·.1 == id) =
      (k.entries.find? (·.id == id)).map fun e => (e.id, Slot.restore e.slot) := by
    rw [Checkpoint.slots, List.map_map, List.find?_map]
    rfl
  rw [hloop, slot?_modifyEach left id hkeys, slot?_modifyEach_map unstaged id hmembers,
    slot?_modifyEach_map s id hstaged, h.staged, h.members, hfind]
  cases k.entries.find? (Saved.id · == id) <;> rfl

theorem Agrees.rollback (hfits : ∀ k, c.checkpoint = some k → k.Fits c) :
    s.rollback.1 = c.rollback.1 ∧ s.rollback.2.Agrees c.rollback.2 := by
  have hsaved := h.checkpoint
  cases hk : c.checkpoint with
  | none =>
    rw [hk] at hsaved
    rw [Store.rollback, hsaved, Cache.rollback_of_none hk]
    exact ⟨rfl, h⟩
  | some k =>
    rw [hk] at hsaved
    have hg : ∀ e ∈ c.entries, (k.bringBack e).id = e.id ∧ (k.bringBack e).path = e.path :=
      fun e he => hc.bringBack_name (hfits k hk) he
    have hslot : ∀ e ∈ c.entries, s.slot? e.id = some e.slot →
        s.rollback.2.slot? e.id = some (k.bringBack e).slot := by
      intro e he hold
      rw [h.slot?_rollback hc hk, hold, slot_bare hc he, Checkpoint.bringBack]
      cases k.entries.find? (Saved.id · == e.id) <;> rfl
    have hempty : ∀ id, s.slot? id = none → s.rollback.2.slot? id = none := by
      intro id hid
      rw [h.slot?_rollback hc hk, hid]
      split <;> split <;> split <;> rfl
    have hentries : (c.undo k).entries = c.entries.map k.bringBack := rfl
    have hslots := h.slot_of_map hentries hg hc hempty hslot
    rw [hc.rollback_eq hk]
    rw [Store.rollback, hsaved] at hslots ⊢
    refine ⟨rfl, ?_, hslots, h.byPath_of_map hentries hg ?_, rfl, rfl, rfl, fun p => ?_, rfl,
      fun _ hk' => nomatch hk'⟩
    · simp [h.length, Cache.undo]
    · simp
    · simp only [Store.retiredVersion?, modifyEach_retired]
      exact h.retired p

end

/-! ## Forgetting -/

/-- The slots of entries are emptied: their paths are taken out of the table, and their versions
are kept. -/
structure Forgets (s s' : Store) (doomed : List Entry) : Prop where
  length : s'.slots.length = s.slots.length
  slot : ∀ id, s'.slot? id = if id ∈ doomed.map Entry.id then none else s.slot? id
  byPath : s'.byPath = s.byPath.filter fun x => !doomed.any (·.path == x.1)
  retired : ∀ p, s'.retiredVersion? p =
    match doomed.find? (·.path == p) with
    | some e => some e.next.version
    | none => s.retiredVersion? p
  staged : s'.staged = s.staged
  members : s'.members = s.members
  cycle : s'.cycle = s.cycle
  checkpoint : s'.checkpoint = s.checkpoint

theorem forgets_nil (s : Store) : s.Forgets s [] := by
  refine ⟨rfl, fun _ => rfl, ?_, fun _ => rfl, rfl, rfl, rfl, rfl⟩
  exact (List.filter_eq_self.mpr fun _ _ => rfl).symm

section
variable {s' : Store} {e : Entry} (hslot : s.slot? e.id = some e.slot)
include hslot

theorem forget_eq : s.forget e.path e.id = { s with
    slots := s.slots.set e.id none
    retired := (e.path, e.next.version) :: s.retired.filter (·.1 != e.path)
    byPath := s.byPath.filter (·.1 != e.path) } := by
  rw [forget, hslot]
  rfl

theorem slot?_forget (id : FileId) :
    (s.forget e.path e.id).slot? id = if id = e.id then none else s.slot? id := by
  rw [forget_eq hslot, slot?, List.getElem?_set]
  by_cases hid : id = e.id
  · rw [if_pos hid.symm, if_pos hid]
    split <;> rfl
  · rw [if_neg (Ne.symm hid), if_neg hid, slot?]

theorem Forgets.cons {doomed : List Entry} (hpath : ∀ x ∈ doomed, x.path ≠ e.path)
    (h : (s.forget e.path e.id).Forgets s' doomed) : s.Forgets s' (e :: doomed) := by
  refine ⟨?_, fun id => ?_, ?_, fun p => ?_, ?_, ?_, ?_, ?_⟩
  · rw [h.length, forget_eq hslot, List.length_set]
  · rw [h.slot, slot?_forget hslot, List.map_cons]
    by_cases hid : id = e.id <;> simp [hid]
  · rw [h.byPath, forget_eq hslot, List.filter_filter]
    apply List.filter_congr
    intro x _
    rw [List.any_cons, Bool.not_or, Bool.and_comm, bne, Bool.beq_comm]
  · have hretired : (s.forget e.path e.id).retiredVersion? p =
        if p = e.path then some e.next.version else s.retiredVersion? p := by
      rw [forget_eq hslot, retiredVersion?, List.find?_cons, find?_key_filter_ne]
      by_cases hp : p = e.path
      · simp [hp]
      · rw [beq_eq_false_iff_ne.mpr (Ne.symm hp), if_neg hp, if_neg hp, retiredVersion?]
    rw [h.retired, hretired, List.find?_cons]
    by_cases hp : p = e.path
    · have hnone : doomed.find? (Entry.path · == e.path) = none :=
        find?_key_eq_none_iff.mpr hpath
      rw [hp, hnone, beq_self_eq_true, if_pos rfl]
    · rw [beq_eq_false_iff_ne.mpr (Ne.symm hp), if_neg hp]
  · rw [h.staged, forget_eq hslot]
  · rw [h.members, forget_eq hslot]
  · rw [h.cycle, forget_eq hslot]
  · rw [h.checkpoint, forget_eq hslot]

end

theorem forgets_foldl {doomed : List Entry} (hids : (doomed.map Entry.id).Nodup)
    (hpaths : (doomed.map Entry.path).Nodup) (s : Store)
    (hslots : ∀ e ∈ doomed, s.slot? e.id = some e.slot) :
    s.Forgets ((doomed.map fun e => (e.path, e.id)).foldl (fun s (p, id) => s.forget p id) s)
      doomed := by
  induction doomed generalizing s with
  | nil => exact s.forgets_nil
  | cons e doomed ih =>
    obtain ⟨hid, hids⟩ := List.nodup_cons.mp hids
    obtain ⟨hpath, hpaths⟩ := List.nodup_cons.mp hpaths
    have hslot := hslots e List.mem_cons_self
    refine .cons hslot (fun x hx heq => hpath (heq ▸ List.mem_map_of_mem hx)) ?_
    refine ih hids hpaths (s.forget e.path e.id) fun x hx => ?_
    have hne : x.id ≠ e.id := fun heq => hid (heq ▸ List.mem_map_of_mem hx)
    rw [slot?_forget hslot, if_neg hne, hslots x (List.mem_cons_of_mem e hx)]

section
variable (h : s.Agrees c) (hc : c.Sound) (keep : List Path) {s' : Store}
  (hf : ({ s with checkpoint := none } : Store).Forgets s'
    (c.entries.filter fun e => !e.path.among keep))
include h hc hf

/-- What is left of the slots when those of the paths to forget are empty. -/
theorem Agrees.slot?_forgotten (id : FileId) :
    s'.slot? id = ((c.entry? id).filter (·.path.among keep)).map Entry.slot := by
  rw [hf.slot]
  show (if _ then none else s.slot? id) = _
  rw [h.slot]
  cases hid : c.entry? id with
  | none => exact ite_self _
  | some e =>
    obtain ⟨he, rfl⟩ := hc.entry?_eq_some_iff.mp hid
    have hin : e.id ∈ (c.entries.filter fun e => !e.path.among keep).map Entry.id ↔
        e.path.among keep = false := by
      rw [List.mem_map]
      constructor
      · rintro ⟨x, hx, hxid⟩
        obtain ⟨hx, hdoomed⟩ := List.mem_filter.mp hx
        rw [← hc.eq_of_id hx he hxid]
        simpa using hdoomed
      · exact fun hdoomed => ⟨e, List.mem_filter.mpr ⟨he, by rw [hdoomed]; rfl⟩, rfl⟩
    rw [Option.filter_some, ite_congr (propext hin) (fun _ => rfl) fun _ => rfl]
    cases e.path.among keep <;> rfl

/-- The ids that still have a slot are those that the cache spares. -/
theorem Agrees.filter_forgotten {ids : List FileId}
    (hids : ∀ id ∈ ids, ∃ e ∈ c.entries, e.id = id) :
    ids.filter (fun id => (s'.slot? id).isSome) = c.spared keep ids := by
  apply List.filter_congr
  intro id hid
  obtain ⟨e, he, rfl⟩ := hids id hid
  rw [h.slot?_forgotten hc keep hf, hc.entry?_of_mem he, hc.spares_eq keep he, Option.isSome_map,
    Option.filter_some]
  cases e.path.among keep <;> rfl

theorem Agrees.byPath_forgotten :
    s'.byPath = (c.pruned keep).entries.map fun e => (e.path, e.id) := by
  have hkept : ∀ e ∈ c.entries, (!(c.entries.filter fun e => !e.path.among keep).any
      (·.path == e.path)) = e.path.among keep := by
    intro e he
    rw [List.any_filter]
    cases hkeep : e.path.among keep with
    | true =>
      rw [Bool.not_eq_true', List.any_eq_false]
      intro x hx hdoomed
      obtain ⟨hdoomed, hpath⟩ := Bool.and_eq_true_iff.mp hdoomed
      rw [hc.eq_of_path hx he (eq_of_beq hpath), hkeep] at hdoomed
      exact Bool.false_ne_true hdoomed
    | false =>
      rw [Bool.not_eq_false', List.any_eq_true]
      exact ⟨e, he, by rw [hkeep, beq_self_eq_true]; rfl⟩
  rw [hf.byPath]
  show s.byPath.filter _ = ((c.entries.filter (·.path.among keep)).map _).map _
  rw [h.byPath, List.filter_map, List.map_map, ← List.filter_congr hkept]
  rfl

theorem Agrees.retired_forgotten (p : Path) :
    s'.retiredVersion? p = (c.pruned keep).retiredVersion? p := by
  rw [hf.retired]
  cases hfind : (c.entries.filter fun e => !e.path.among keep).find? (Entry.path · == p) with
  | none =>
    have hnone : ∀ e ∈ c.entries, e.path.among keep = false → e.path ≠ p := fun e he hdoomed =>
      find?_key_eq_none_iff.mp hfind e (List.mem_filter.mpr ⟨he, by rw [hdoomed]; rfl⟩)
    rw [Cache.retiredVersion?_pruned hnone]
    exact h.retired p
  | some e =>
    obtain ⟨he, hdoomed⟩ := List.mem_filter.mp (List.mem_of_find?_eq_some hfind)
    have hpath : e.path = p := by simpa using List.find?_some hfind
    rw [← hpath, hc.retiredVersion?_doomed he (by simpa using hdoomed)]

/-- The slots that are left, when they have got their places in the cycle anew. -/
theorem Agrees.slot?_spared (id : FileId) :
    (s'.modifyEach (byPlace (c.spared keep c.members) fun rank e => { e with rank })).slot? id =
      (Cache.entry? (c.prune keep).2 id).map Entry.slot := by
  have hnodup : (c.spared keep c.members).Nodup := hc.membersNodup.sublist List.filter_sublist
  rw [slot?_modifyEach_byPlace s' id hnodup, h.slot?_forgotten hc keep hf, hc.entry?_prune keep]
  cases hid : (c.entry? id).filter (·.path.among keep) with
  | none => split <;> rfl
  | some e =>
    obtain ⟨hentry, hkeep⟩ := Option.filter_eq_some_iff.mp hid
    obtain ⟨he, rfl⟩ := hc.entry?_eq_some_iff.mp hentry
    have hslot := e.slot_rank (hc.spare_inCycle he hkeep)
    show (match (c.spare keep e).rank with
      | some rank => some { e.slot with rank }
      | none => some e.slot) = some ({ e with rank := (c.spare keep e).rank } : Entry).slot
    rw [hslot]
    cases (c.spare keep e).rank <;> rfl

end

section
variable (h : s.Agrees c) (hc : c.Sound) (keep : List Path)
include h hc

/-- A prune forgets the doomed paths one by one and then cuts the lists down to what is left. -/
theorem Agrees.exists_forgotten :
    let doomed := c.entries.filter fun e => !e.path.among keep
    ∃ s' : Store, ({ s with checkpoint := none } : Store).Forgets s' doomed ∧
      (doomed = [] → s' = { s with checkpoint := none }) ∧
      s.prune keep = if doomed.isEmpty then (0, s') else (doomed.length,
        { s'.modifyEach (byPlace (c.spared keep c.members) fun rank e => { e with rank }) with
          staged := c.spared keep c.staged
          members := c.spared keep c.members }) := by
  intro doomed
  let bare : Store := { s with checkpoint := none }
  let s' := (doomed.map fun e => (e.path, e.id)).foldl (fun s (p, id) => s.forget p id) bare
  have hdoomed : (s.byPath.filter fun x => !x.1.among keep) =
      doomed.map fun e => (e.path, e.id) := by
    rw [h.byPath, List.filter_map]
    rfl
  have hsub : doomed.Sublist c.entries := List.filter_sublist
  have hf : bare.Forgets s' doomed :=
    forgets_foldl (hc.ids.sublist (hsub.map _)) (hc.paths.sublist (hsub.map _)) bare
      fun e he => (h.slot e.id).trans (congrArg _ (hc.entry?_of_mem (hsub.subset he)))
  have hs : s'.staged = c.staged := hf.staged.trans h.staged
  have hm : s'.members = c.members := hf.members.trans h.members
  refine ⟨s', hf, fun hnone => ?_, ?_⟩
  · show (doomed.map _).foldl _ bare = bare
    rw [hnone]
    rfl
  · rw [← h.filter_forgotten hc keep hf hc.stagedIn, ← h.filter_forgotten hc keep hf hc.members,
      ← hs, ← hm]
    unfold Store.prune
    rw [hdoomed]
    dsimp only
    rw [List.isEmpty_map, List.length_map]

theorem Agrees.prune : (s.prune keep).1 = (c.prune keep).1 ∧
    (s.prune keep).2.Agrees (c.prune keep).2 := by
  obtain ⟨s', hf, hbare, hprune⟩ := h.exists_forgotten hc keep
  rw [hprune]
  cases hnil : (c.entries.filter fun e => !e.path.among keep).isEmpty with
  | true =>
    have hcache : c.prune keep = (0, { c with checkpoint := none }) := by
      rw [Cache.prune, List.partition_eq_filter_filter]
      exact if_pos hnil
    rw [hcache, hbare (List.isEmpty_iff.mp hnil)]
    exact ⟨rfl, h.length, h.slot, h.byPath, h.staged, h.members, h.cycle, h.retired, rfl,
      fun _ hk => nomatch hk⟩
  | false =>
    have hslots := h.slot?_spared hc keep hf
    rw [hc.prune_eq keep] at hslots ⊢
    refine ⟨rfl, ?_, hslots, ?_, rfl, rfl, ?_, fun p => ?_, ?_, fun _ hk => nomatch hk⟩
    · simp [hf.length, h.length, Cache.pruned]
    · show (s'.modifyEach _).byPath = _
      rw [modifyEach_byPath]
      exact h.byPath_forgotten hc keep hf
    · simp [hf.cycle, h.cycle, Cache.pruned]
    · show ((s'.modifyEach _).retired.find? _).map _ = _
      rw [modifyEach_retired]
      exact h.retired_forgotten hc keep hf p
    · simp [hf.checkpoint, Cache.pruned]

end

end IncrementalBuild.Store
