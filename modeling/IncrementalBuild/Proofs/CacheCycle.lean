import IncrementalBuild.Proofs.CacheInvariant
/-!
# Committing, taking back and forgetting

The operations on a cache that change what is committed: a reset, a rollback and a prune. Each of
them keeps the invariant. What is stated besides: how each of them changes the entries.
-/
namespace IncrementalBuild

/-- The entry after a rollback. Staged content is dropped, and what was saved comes back. -/
def Checkpoint.bringBack (k : Checkpoint) (e : Entry) : Entry :=
  let bare := { e with staged := false, pending := none, rank := none }
  match k.entries.find? (·.id == e.id) with
  | some s => bare.restore s
  | none => bare

namespace Cache

/-! ## Committing -/

/-- The entry after its cache commits the staged files. -/
def commitEntry (c : Cache) (e : Entry) : Entry :=
  match c.staged.idxOf? e.id with
  | some rank => e.commit (c.cycle + 1) rank
  | none => if e.id ∈ c.members then { e with rank := none } else e

theorem commit_entries (c : Cache) : c.commit.entries = c.entries.map c.commitEntry := rfl

section
variable {c : Cache} (h : c.WellFormed) {e : Entry} (he : e ∈ c.entries)
include h he

theorem WellFormed.commitEntry_of_staged (hs : e.staged = true) :
    ∃ rank, c.staged.idxOf? e.id = some rank ∧
      c.commitEntry e = e.commit (c.cycle + 1) rank := by
  have hin := (h.staged_iff he).mpr hs
  obtain ⟨rank, hr⟩ := Option.isSome_iff_exists.mp (List.isSome_idxOf?.mpr hin)
  exact ⟨rank, hr, by simp [commitEntry, hr]⟩

theorem WellFormed.commitEntry_of_not_staged (hs : e.staged = false) :
    c.staged.idxOf? e.id = none ∧ c.commitEntry e = { e with rank := none } := by
  have hin : e.id ∉ c.staged := by
    rw [h.staged_iff he, hs]
    simp
  have hnone := List.idxOf?_eq_none_iff.mpr hin
  refine ⟨hnone, ?_⟩
  simp only [commitEntry, hnone]
  split
  · rfl
  · next hm =>
    have : e.rank = none := by
      rw [h.ranks e he]
      exact List.idxOf?_eq_none_iff.mpr hm
    rw [← this]

theorem WellFormed.pending_of_not_staged (hs : e.staged = false) : e.pending = none := by
  cases hp : e.pending with
  | none => rfl
  | some f =>
    have := ((h.entries e he).beside (by simp [hp])).1
    simp [hs] at this

theorem WellFormed.commitEntry_name :
    (c.commitEntry e).id = e.id ∧ (c.commitEntry e).path = e.path := by
  cases hs : e.staged with
  | true =>
    obtain ⟨rank, _, heq⟩ := h.commitEntry_of_staged he hs
    rw [heq]
    exact (h.entries e he).next.2
  | false =>
    rw [(h.commitEntry_of_not_staged he hs).2]
    exact ⟨rfl, rfl⟩

theorem WellFormed.commitEntry_sound : (c.commitEntry e).Sound := by
  have hsound := h.entries e he
  cases hs : e.staged with
  | true =>
    obtain ⟨rank, _, heq⟩ := h.commitEntry_of_staged he hs
    rw [heq]
    refine ⟨hsound.next.1.mark e.external, ?_, ?_, ?_, ?_⟩ <;> simp [Entry.commit]
  | false =>
    rw [(h.commitEntry_of_not_staged he hs).2]
    exact ⟨hsound.file, hsound.pending, hsound.beside, hsound.committed, by simp⟩

/-- What is saved of an entry that a commit touches fits the committed entry. -/
theorem WellFormed.save_fits (ht : e.id ∈ c.members ∨ e.id ∈ c.staged) :
    e.save.Fits (c.commitEntry e) c.members := by
  have hsound := h.entries e he
  have hname := h.commitEntry_name he
  have hfile : ∀ f, e.save.file = some f → f = e.file := by
    intro f hf
    obtain ⟨_, _, hf⟩ := Option.map_eq_some_iff.mp hf
    exact hf.symm
  refine ⟨?_, ?_, hsound.inCycle, ?_, ?_⟩
  · cases hs : e.staged with
    | true =>
      obtain ⟨rank, _, heq⟩ := h.commitEntry_of_staged he hs
      simp [heq, Entry.commit]
    | false =>
      have hm : e.id ∈ c.members := by
        rcases ht with ht | ht
        · exact ht
        · rw [h.staged_iff he, hs] at ht
          simp at ht
      rw [(h.commitEntry_of_not_staged he hs).2]
      exact hsound.inCycle ((h.member_iff he).mp hm)
  · rw [hname.1]
    exact h.ranks e he
  · intro f hf
    rw [hfile f hf, hname.1, hname.2]
    exact ⟨hsound.file, rfl, rfl⟩
  · intro hash hc
    -- the hash is that of the saved file, or of the file that stays if none takes its place
    rw [hsound.committed hash hc]
    cases hp : e.pending with
    | some f => simp [Entry.save, hp]
    | none =>
      have hnext : e.next = e.file := by simp [Entry.next, hp]
      cases hs : e.staged with
      | true =>
        obtain ⟨rank, _, heq⟩ := h.commitEntry_of_staged he hs
        simp [Entry.save, hp, heq, Entry.commit, hnext]
      | false => simp [Entry.save, hp, (h.commitEntry_of_not_staged he hs).2]

end

theorem mem_save_entries {c : Cache} (h : c.WellFormed) {s : Saved} :
    s ∈ c.save.entries ↔
      ∃ e ∈ c.entries, (e.id ∈ c.members ∨ e.id ∈ c.staged) ∧ e.save = s := by
  simp only [save, List.mem_map, List.mem_filterMap, List.mem_eraseDups, List.mem_append]
  constructor
  · rintro ⟨e, ⟨id, hid, he⟩, rfl⟩
    obtain ⟨hm, rfl⟩ := h.entry?_eq_some_iff.mp he
    exact ⟨e, hm, hid, rfl⟩
  · rintro ⟨e, he, hid, rfl⟩
    exact ⟨e, ⟨e.id, hid, h.entry?_of_mem he⟩, rfl⟩

theorem Sound.commit {c : Cache} (h : c.Sound) : c.commit.Sound := by
  refine ⟨h.map c.commitEntry rfl rfl (fun e he => h.commitEntry_sound he)
    (fun e he => h.commitEntry_name he) List.nodup_nil ?_ ?_ h.stagedNodup h.stagedIn ?_, ?_⟩
  · intro id hid
    exact absurd hid List.not_mem_nil
  · intro e he
    cases hs : e.staged with
    | true =>
      obtain ⟨rank, _, heq⟩ := h.commitEntry_of_staged he hs
      simp [heq, Entry.commit, Cache.commit]
    | false => simp [(h.commitEntry_of_not_staged he hs).2, hs, Cache.commit]
  · intro e he
    show _ = c.staged.idxOf? e.id
    cases hs : e.staged with
    | true =>
      obtain ⟨rank, hr, heq⟩ := h.commitEntry_of_staged he hs
      rw [heq, hr]
      rfl
    | false =>
      obtain ⟨hnone, heq⟩ := h.commitEntry_of_not_staged he hs
      rw [heq, hnone]
  · intro k hk
    cases hk
    refine ⟨h.membersNodup, ?_, ?_⟩
    · intro id hid
      obtain ⟨e, he, rfl⟩ := h.members id hid
      exact ⟨e.save, (mem_save_entries h.toWellFormed).mpr ⟨e, he, Or.inl hid, rfl⟩, rfl⟩
    · intro s hs
      obtain ⟨e, he, ht, rfl⟩ := (mem_save_entries h.toWellFormed).mp hs
      exact ⟨_, List.mem_map_of_mem he, (h.commitEntry_name he).1, h.save_fits he ht⟩

/-! ## Taking back -/

/-- The cache after a rollback to a checkpoint. -/
def undo (c : Cache) (k : Checkpoint) : Cache :=
  { c with
    entries := c.entries.map k.bringBack
    staged := []
    members := k.members
    cycle := k.cycle
    checkpoint := none }

theorem WellFormed.rollback_eq {c : Cache} (h : c.WellFormed) {k : Checkpoint}
    (hk : c.checkpoint = some k) : c.rollback = (true, c.undo k) := by
  simp only [rollback, hk, undo]
  congr 2
  apply List.map_congr_left
  intro e he
  -- an entry outside the staged list has nothing to drop, and one outside the cycle no place
  have hstaged : (if e.id ∈ c.staged then { e with staged := false, pending := none } else e) =
      { e with staged := false, pending := none } := by
    split
    · rfl
    · next hs =>
      have hs : e.staged = false := by simpa using mt (h.staged_iff he).mpr hs
      rw [← hs, ← h.pending_of_not_staged he hs]
  have hrank : ∀ x : Entry, x.id = e.id → x.rank = e.rank →
      (if x.id ∈ c.members then { x with rank := none } else x) = { x with rank := none } := by
    intro x hid hr
    split
    · rfl
    · next hm =>
      have : x.rank = none := by
        rw [hr, h.ranks e he]
        exact List.idxOf?_eq_none_iff.mpr (hid ▸ hm)
      rw [← this]
  rw [hstaged, hrank { e with staged := false, pending := none } rfl rfl]
  rfl

theorem rollback_of_none {c : Cache} (hk : c.checkpoint = none) : c.rollback = (false, c) := by
  simp [rollback, hk]

theorem not_member_of_not_saved {c : Cache} {k : Checkpoint} (hk : k.Fits c) {e : Entry}
    (hs : k.entries.find? (·.id == e.id) = none) : e.id ∉ k.members := by
  intro hm
  obtain ⟨s, hsin, hid⟩ := hk.members e.id hm
  exact find?_key_eq_none_iff.mp hs s hsin hid

section
variable {c : Cache} {k : Checkpoint} (h : c.WellFormed) (hk : k.Fits c) {e : Entry}
  (he : e ∈ c.entries)
include h hk he

theorem WellFormed.saved_fits {s : Saved} (hs : k.entries.find? (·.id == e.id) = some s) :
    s.Fits e k.members := by
  have hid : s.id = e.id := by simpa using List.find?_some hs
  obtain ⟨x, hx, hxid, hfit⟩ := hk.entries s (List.mem_of_find?_eq_some hs)
  rw [← h.eq_of_id hx he (hxid.trans hid)]
  exact hfit

theorem WellFormed.bringBack_name :
    (k.bringBack e).id = e.id ∧ (k.bringBack e).path = e.path := by
  unfold Checkpoint.bringBack
  split
  · next s hs =>
    cases hf : s.file with
    | none => simp [Entry.restore, Entry.id, Entry.path, hf]
    | some f =>
      have := ((h.saved_fits hk he hs).file f hf).2
      simpa [Entry.restore, Entry.id, Entry.path, hf] using this
  · exact ⟨rfl, rfl⟩

theorem WellFormed.bringBack_sound : (k.bringBack e).Sound := by
  have hsound := h.entries e he
  unfold Checkpoint.bringBack
  split
  · next s hs =>
    have hfit := h.saved_fits hk he hs
    have hmade : (s.file.getD e.file).Made := by
      cases hf : s.file with
      | none => exact hsound.file
      | some f => exact (hfit.file f hf).1
    refine ⟨hmade.mark s.external, ?_, ?_, hfit.committed, hfit.inCycle⟩ <;> simp [Entry.restore]
  · refine ⟨hsound.file, ?_, ?_, hsound.committed, ?_⟩ <;> simp

theorem WellFormed.bringBack_rank : (k.bringBack e).rank = k.members.idxOf? e.id := by
  unfold Checkpoint.bringBack
  split
  · next s hs => exact (h.saved_fits hk he hs).rank
  · next hs => exact (List.idxOf?_eq_none_iff.mpr (not_member_of_not_saved hk hs)).symm

end

theorem bringBack_staged (k : Checkpoint) (e : Entry) : (k.bringBack e).staged = false := by
  unfold Checkpoint.bringBack
  split <;> rfl

theorem Sound.undo {c : Cache} (h : c.Sound) {k : Checkpoint} (hk : k.Fits c) :
    (c.undo k).Sound := by
  refine ⟨h.map k.bringBack rfl rfl (fun e he => h.bringBack_sound hk he)
    (fun e he => h.bringBack_name hk he) List.nodup_nil ?_ ?_ hk.membersNodup ?_
    (fun e he => h.bringBack_rank hk he), ?_⟩
  · intro id hid
    exact absurd hid List.not_mem_nil
  · intro e _
    rw [bringBack_staged]
    simp [Cache.undo]
  · intro id hid
    obtain ⟨s, hs, rfl⟩ := hk.members id hid
    obtain ⟨e, he, hid, _⟩ := hk.entries s hs
    exact ⟨e, he, hid⟩
  · intro k hk
    exact absurd hk (by simp [Cache.undo])

theorem Sound.rollback {c : Cache} (h : c.Sound) : c.rollback.2.Sound := by
  cases hk : c.checkpoint with
  | none =>
    rw [rollback_of_none hk]
    exact h
  | some k =>
    rw [h.rollback_eq hk]
    exact h.undo (h.checkpoint k hk)

/-! ## Forgetting -/

/-- The ids that a prune leaves, in order. -/
def spared (c : Cache) (keep : List Path) (ids : List FileId) : List FileId :=
  ids.filter fun id => (c.entries.filter (·.path.among keep)).any (·.id == id)

/-- The cache after a prune. -/
def pruned (c : Cache) (keep : List Path) : Cache :=
  let doomed := c.entries.filter fun e => !e.path.among keep
  { c with
    entries := (c.entries.filter (·.path.among keep)).map fun e =>
      { e with rank := (c.spared keep c.members).idxOf? e.id }
    staged := c.spared keep c.staged
    members := c.spared keep c.members
    retired := doomed.map (fun e => (e.path, e.next.version)) ++
      c.retired.filter fun (p, _) => !doomed.any (·.path == p)
    checkpoint := none }

section
variable {c : Cache} (h : c.WellFormed) (keep : List Path)
include h

theorem WellFormed.spares_eq {e : Entry} (he : e ∈ c.entries) :
    (c.entries.filter (·.path.among keep)).any (·.id == e.id) = e.path.among keep := by
  rw [Bool.eq_iff_iff, List.any_eq_true]
  constructor
  · rintro ⟨x, hx, hid⟩
    obtain ⟨hx, hp⟩ := List.mem_filter.mp hx
    rwa [← h.eq_of_id hx he (beq_iff_eq.mp hid)]
  · exact fun hp => ⟨e, List.mem_filter.mpr ⟨he, hp⟩, beq_self_eq_true e.id⟩

theorem WellFormed.mem_spared {ids : List FileId} {e : Entry} (he : e ∈ c.entries) :
    e.id ∈ c.spared keep ids ↔ e.id ∈ ids ∧ e.path.among keep = true := by
  rw [spared, List.mem_filter, h.spares_eq keep he]

/-- A prune gives each entry that it leaves its place among the members that are left. -/
theorem WellFormed.prune_eq : c.prune keep =
    ((c.entries.filter fun e => !e.path.among keep).length, c.pruned keep) := by
  have hrank : ∀ e ∈ c.entries.filter (·.path.among keep),
      (match (c.spared keep c.members).idxOf? e.id with
        | some rank => { e with rank := some rank }
        | none => e) = { e with rank := (c.spared keep c.members).idxOf? e.id } := by
    intro e he
    obtain ⟨he, hp⟩ := List.mem_filter.mp he
    split
    · next rank hr => rw [hr]
    · next hr =>
      have hm : e.id ∉ c.members := fun hm =>
        List.idxOf?_eq_none_iff.mp hr ((h.mem_spared keep he).mpr ⟨hm, hp⟩)
      rw [hr, ← List.idxOf?_eq_none_iff.mpr hm, ← h.ranks e he]
  unfold prune
  rw [List.partition_eq_filter_filter]
  dsimp only
  split
  · next hd =>
    -- nothing is forgotten here, so every list stays and the places with it
    have hall : ∀ e ∈ c.entries, e.path.among keep = true := by
      intro e he
      have := List.filter_eq_nil_iff.mp (List.isEmpty_iff.mp hd) e he
      simpa using this
    have hids : ∀ ids : List FileId, (∀ id ∈ ids, ∃ e ∈ c.entries, e.id = id) →
        c.spared keep ids = ids := by
      intro ids hids
      apply List.filter_eq_self.mpr
      intro id hid
      obtain ⟨e, he, rfl⟩ := hids id hid
      exact List.any_eq_true.mpr
        ⟨e, List.mem_filter.mpr ⟨he, hall e he⟩, by simp⟩
    have hstaged := hids _ h.stagedIn
    have hmembers := hids _ h.members
    have hentries : (c.entries.filter (·.path.among keep)).map (fun e =>
        { e with rank := c.members.idxOf? e.id }) = c.entries := by
      rw [List.filter_eq_self.mpr hall, List.map_congr_left (g := id), List.map_id]
      intro e he
      rw [← h.ranks e he]
      rfl
    have hnil : (c.entries.filter fun e => !e.path.among keep) = [] := List.isEmpty_iff.mp hd
    simp only [pruned, hstaged, hmembers, hentries, hnil]
    simp
  · unfold pruned
    dsimp only
    rw [← List.map_congr_left hrank]
    rfl

end

theorem Sound.prune {c : Cache} (h : c.Sound) (keep : List Path) : (c.prune keep).2.Sound := by
  rw [h.prune_eq keep]
  have hmem : ∀ {P : Entry → Prop}, (∀ e ∈ c.entries, e.path.among keep = true →
      P { e with rank := (c.spared keep c.members).idxOf? e.id }) →
      ∀ e ∈ (c.pruned keep).entries, P e := by
    intro P hP e he
    obtain ⟨x, hx, rfl⟩ := List.mem_map.mp he
    exact hP x (List.mem_filter.mp hx).1 (List.mem_filter.mp hx).2
  have hof : ∀ e ∈ c.entries, e.path.among keep = true →
      { e with rank := (c.spared keep c.members).idxOf? e.id } ∈ (c.pruned keep).entries :=
    fun e he hp => List.mem_map_of_mem (List.mem_filter.mpr ⟨he, hp⟩)
  refine ⟨⟨?_, ?_, ?_, ?_, ?_, ?_, ?_, ?_, ?_⟩, ?_⟩
  · refine hmem fun e he hp => ?_
    have hsound := h.entries e he
    refine ⟨hsound.file, hsound.pending, hsound.beside, hsound.committed, fun hr => ?_⟩
    have hm := ((h.mem_spared keep he).mp (List.isSome_idxOf?.mp hr)).1
    exact hsound.inCycle ((h.member_iff he).mp hm)
  · have hids : (c.pruned keep).entries.map Entry.id =
        (c.entries.filter (·.path.among keep)).map Entry.id := by
      simp only [pruned, List.map_map]
      rfl
    rw [hids]
    exact h.ids.sublist (List.filter_sublist.map _)
  · have hpaths : (c.pruned keep).entries.map Entry.path =
        (c.entries.filter (·.path.among keep)).map Entry.path := by
      simp only [pruned, List.map_map]
      rfl
    rw [hpaths]
    exact h.paths.sublist (List.filter_sublist.map _)
  · exact hmem fun e he _ => h.fresh e he
  · exact h.stagedNodup.sublist List.filter_sublist
  · intro id
    constructor
    · intro hid
      obtain ⟨e, he, rfl, hs⟩ := (h.staged id).mp (List.mem_of_mem_filter hid)
      exact ⟨_, hof e he ((h.mem_spared keep he).mp hid).2, rfl, hs⟩
    · rintro ⟨e', he', rfl, hs⟩
      revert hs
      refine hmem (P := fun e' => e'.staged = true → e'.id ∈ (c.pruned keep).staged)
        (fun e he hp hs => ?_) e' he'
      exact (h.mem_spared keep he).mpr ⟨(h.staged_iff he).mpr hs, hp⟩
  · exact h.membersNodup.sublist List.filter_sublist
  · intro id hid
    obtain ⟨e, he, rfl⟩ := h.members id (List.mem_of_mem_filter hid)
    exact ⟨_, hof e he ((h.mem_spared keep he).mp hid).2, rfl⟩
  · exact hmem fun e he hp => rfl
  · intro k hk
    exact absurd hk (by simp [pruned])

/-- An entry that a prune leaves, at its place among the members that are left. -/
def spare (c : Cache) (keep : List Path) (e : Entry) : Entry :=
  { e with rank := (c.spared keep c.members).idxOf? e.id }

theorem WellFormed.spare_inCycle {c : Cache} (h : c.WellFormed) {keep : List Path} {e : Entry}
    (he : e ∈ c.entries) (hk : e.path.among keep = true) :
    (c.spare keep e).inCycle = e.inCycle := by
  show ((c.spared keep c.members).idxOf? e.id).isSome = e.inCycle
  rw [Bool.eq_iff_iff, List.isSome_idxOf?, h.mem_spared keep he, ← h.member_iff he]
  exact and_iff_left hk

theorem Sound.mem_prune {c : Cache} (h : c.Sound) (keep : List Path) {x : Entry} :
    x ∈ (c.prune keep).2.entries ↔
      ∃ e ∈ c.entries, e.path.among keep = true ∧ c.spare keep e = x := by
  rw [h.prune_eq keep]
  simp only [pruned, List.mem_map, List.mem_filter, and_assoc]
  rfl

section
variable {c : Cache} (h : c.Sound) {keep : List Path}
include h

/-- A path that is kept is found as before, and no other is found. -/
theorem Sound.lookup?_prune {p : Path} : (c.prune keep).2.lookup? p =
    if p.normalize.among keep then (c.lookup? p).map (c.spare keep) else none := by
  ext x
  rw [(h.prune keep).lookup?_eq_some_iff, h.mem_prune keep]
  split
  · next hp =>
    simp only [Option.map_eq_some_iff, h.lookup?_eq_some_iff]
    constructor
    · rintro ⟨⟨e, he, _, rfl⟩, hpath⟩
      exact ⟨e, ⟨he, hpath⟩, rfl⟩
    · rintro ⟨e, ⟨he, hpath⟩, rfl⟩
      exact ⟨⟨e, he, hpath ▸ hp, rfl⟩, hpath⟩
  · next hp =>
    refine iff_of_false ?_ (by simp)
    rintro ⟨⟨e, _, hk, rfl⟩, hpath⟩
    exact hp (hpath ▸ hk)

theorem Sound.cycle_prune : (c.prune keep).2.cycle = c.cycle := by
  rw [h.prune_eq keep]
  rfl

theorem Sound.get?_prune (p : Path) :
    (c.prune keep).2.get? p = if p.normalize.among keep then c.get? p else none := by
  unfold get?
  rw [h.lookup?_prune]
  split
  · rw [Option.map_map]
    rfl
  · rfl

/-- A question that a prune does not change the answer to is answered as before for a path that
is kept, and with no for every other path. -/
theorem Sound.any_lookup?_prune {q : Entry → Bool}
    (hq : ∀ e ∈ c.entries, e.path.among keep = true → q (c.spare keep e) = q e) (p : Path) :
    ((c.prune keep).2.lookup? p).any q = (p.normalize.among keep && (c.lookup? p).any q) := by
  rw [h.lookup?_prune]
  cases hp : p.normalize.among keep with
  | false => rfl
  | true =>
    cases hl : c.lookup? p with
    | none => rfl
    | some e =>
      obtain ⟨he, hpath⟩ := h.lookup?_eq_some_iff.mp hl
      exact hq e he (hpath ▸ hp)

theorem Sound.contains_prune (p : Path) :
    (c.prune keep).2.contains p = (p.normalize.among keep && c.contains p) :=
  h.any_lookup?_prune (fun _ he hk => h.spare_inCycle he hk) p

theorem Sound.isStaged_prune (p : Path) :
    (c.prune keep).2.isStaged p = (p.normalize.among keep && c.isStaged p) :=
  h.any_lookup?_prune (fun _ _ _ => rfl) p

theorem Sound.hasChanged_prune (p : Path) :
    (c.prune keep).2.hasChanged p = (p.normalize.among keep && c.hasChanged p) := by
  unfold hasChanged
  rw [h.cycle_prune]
  refine h.any_lookup?_prune (fun e he hk => ?_) p
  rw [h.spare_inCycle he hk]
  rfl

end

theorem Sound.entry?_prune {c : Cache} (h : c.Sound) (keep : List Path) (id : FileId) :
    Cache.entry? (c.prune keep).2 id =
      ((c.entry? id).filter (·.path.among keep)).map (c.spare keep) := by
  ext x
  rw [(h.prune keep).entry?_eq_some_iff, h.mem_prune keep]
  simp only [Option.map_eq_some_iff, Option.filter_eq_some_iff, h.entry?_eq_some_iff]
  constructor
  · rintro ⟨⟨e, he, hk, rfl⟩, hid⟩
    exact ⟨e, ⟨⟨he, hid⟩, hk⟩, rfl⟩
  · rintro ⟨e, ⟨⟨he, hid⟩, hk⟩, rfl⟩
    exact ⟨⟨e, he, hk, rfl⟩, hid⟩

end Cache

end IncrementalBuild
