import IncrementalBuild.Proofs.CacheEntry
import IncrementalBuild.Proofs.Keyed
/-!
# The invariant of the source cache

Ids and paths name entries, the staged list and the members agree with what the entries say, and
what a rollback would bring back agrees with the entries it would bring it back to. Staging and
marking keep this.
-/
namespace IncrementalBuild

/-- What was saved of an entry agrees with it: the entry has been committed since, and the saved
part is that of a committed file, at its place among the members. -/
structure Saved.Fits (s : Saved) (e : Entry) (members : List FileId) : Prop where
  touched : e.committed.isSome
  rank : s.rank = members.idxOf? e.id
  inCycle : s.rank.isSome → s.committed.isSome
  file : ∀ f, s.file = some f → f.Made ∧ f.id = e.id ∧ f.path = e.path
  committed : ∀ hash, s.committed = some hash → hash = (s.file.getD e.file).hash

namespace Cache

/-- What holds of the entries, the staged list and the members. -/
structure WellFormed (c : Cache) : Prop where
  entries : ∀ e ∈ c.entries, e.Sound
  ids : (c.entries.map Entry.id).Nodup
  paths : (c.entries.map Entry.path).Nodup
  fresh : ∀ e ∈ c.entries, e.id < c.nextId
  stagedNodup : c.staged.Nodup
  staged : ∀ id, id ∈ c.staged ↔ ∃ e ∈ c.entries, e.id = id ∧ e.staged = true
  membersNodup : c.members.Nodup
  members : ∀ id ∈ c.members, ∃ e ∈ c.entries, e.id = id
  ranks : ∀ e ∈ c.entries, e.rank = c.members.idxOf? e.id

end Cache

/-- What a rollback needs agrees with the cache it would be used on. -/
structure Checkpoint.Fits (k : Checkpoint) (c : Cache) : Prop where
  membersNodup : k.members.Nodup
  members : ∀ id ∈ k.members, ∃ s ∈ k.entries, s.id = id
  entries : ∀ s ∈ k.entries, ∃ e ∈ c.entries, e.id = s.id ∧ s.Fits e k.members

namespace Cache

/-- The invariant of the cache. -/
structure Sound (c : Cache) : Prop extends c.WellFormed where
  checkpoint : ∀ k, c.checkpoint = some k → k.Fits c

theorem empty_sound : empty.Sound := by
  refine ⟨⟨?_, ?_, ?_, ?_, ?_, ?_, ?_, ?_, ?_⟩, ?_⟩ <;> simp [empty]

/-! ## Looking up -/

section
variable {c : Cache} (h : c.WellFormed)
include h

theorem WellFormed.entry?_eq_some_iff {id : FileId} {e : Entry} :
    c.entry? id = some e ↔ e ∈ c.entries ∧ e.id = id :=
  find?_key_eq_some_iff h.ids

theorem WellFormed.entry?_of_mem {e : Entry} (he : e ∈ c.entries) : c.entry? e.id = some e :=
  h.entry?_eq_some_iff.mpr ⟨he, rfl⟩

theorem WellFormed.lookup?_eq_some_iff {p : Path} {e : Entry} :
    c.lookup? p = some e ↔ e ∈ c.entries ∧ e.path = p.normalize :=
  find?_key_eq_some_iff h.paths

theorem WellFormed.eq_of_id {e e' : Entry} (he : e ∈ c.entries) (he' : e' ∈ c.entries)
    (hid : e.id = e'.id) : e = e' :=
  List.inj_on_of_nodup_map h.ids he he' hid

theorem WellFormed.eq_of_path {e e' : Entry} (he : e ∈ c.entries) (he' : e' ∈ c.entries)
    (hp : e.path = e'.path) : e = e' :=
  List.inj_on_of_nodup_map h.paths he he' hp

theorem WellFormed.staged_iff {e : Entry} (he : e ∈ c.entries) :
    e.id ∈ c.staged ↔ e.staged = true := by
  rw [h.staged]
  constructor
  · rintro ⟨e', he', hid, hs⟩
    rw [← h.eq_of_id he' he hid]
    exact hs
  · intro hs
    exact ⟨e, he, rfl, hs⟩

theorem WellFormed.member_iff {e : Entry} (he : e ∈ c.entries) :
    e.id ∈ c.members ↔ e.inCycle = true := by
  rw [Entry.inCycle, h.ranks e he, List.isSome_idxOf?]

theorem WellFormed.stagedIn : ∀ id ∈ c.staged, ∃ e ∈ c.entries, e.id = id := by
  intro id hid
  obtain ⟨e, he, heid, _⟩ := (h.staged id).mp hid
  exact ⟨e, he, heid⟩

theorem WellFormed.nextId_not_mem {e : Entry} (he : e ∈ c.entries) : e.id ≠ c.nextId :=
  Nat.ne_of_lt (h.fresh e he)

theorem WellFormed.position?_eq (id : FileId) : c.position? id = c.members.idxOf? id := by
  unfold position?
  cases he : c.entry? id with
  | none =>
    symm
    rw [Option.bind_none, List.idxOf?_eq_none_iff]
    intro hid
    obtain ⟨e, hm, rfl⟩ := h.members id hid
    simp [h.entry?_of_mem hm] at he
  | some e =>
    obtain ⟨hm, rfl⟩ := h.entry?_eq_some_iff.mp he
    simp [h.ranks e hm]

end

/-! ## Staging, case by case -/

/-- The cache after a file it knows was staged with a content. -/
def restageAt (c : Cache) (e : Entry) (content : Text) : Cache :=
  { c with
    entries := c.entries.map (Entry.changeAt e.id (·.restage content))
    staged := if e.staged then c.staged else c.staged ++ [e.id] }

/-- The entry of a file the cache does not know, staged. -/
def newEntry (c : Cache) (p : Path) (content : Text) : Entry :=
  let version := match c.retiredVersion? p with
    | some last => last + 1
    | none => 1
  { Entry.new (SourceFile.ofContent c.nextId p content version) with staged := true }

/-- The cache after a file it does not know was staged. -/
def stageNew (c : Cache) (p : Path) (content : Text) : Cache :=
  { c with
    entries := c.entries ++ [c.newEntry p content]
    nextId := c.nextId + 1
    retired := c.retired.filter (·.1 != p)
    staged := c.staged ++ [c.nextId] }

section
variable {c : Cache} (h : c.WellFormed) {p : Path} (content : Text)
include h

theorem WellFormed.stage_of_mem {e : Entry} (he : e ∈ c.entries) (hp : e.path = p.normalize) :
    (c.stage p content).1.id = e.id ∧ (c.stage p content).2 = c.restageAt e content := by
  have hfind : c.entries.find? (·.path == p.normalize) = some e :=
    (find?_key_eq_some_iff h.paths).mpr ⟨he, hp⟩
  have hid : ∀ x ∈ c.entries, (x.changeAt e.id (·.stage content)).id = x.id := fun x _ =>
    (Entry.Keeps.changeAt (Entry.stage_keeps content) e.id x).id
  -- the entry is looked up once more after its content changed, to see whether it was staged
  have hentry : Cache.entry? (c.update e.id (·.stage content)) e.id = some (e.stage content) := by
    show (c.entries.map (Entry.changeAt e.id (·.stage content))).find? (·.id == e.id) = _
    rw [find?_key_map hid, find?_key_of_mem h.ids he, Option.map_some, Entry.changeAt_self]
  refine ⟨by simp [stage, hfind], ?_⟩
  simp only [stage, hfind, enlist, hentry, Option.any_some, Entry.stage_staged]
  have hentries : ((c.update e.id (·.stage content)).update e.id fun e =>
        { e.setExternal false with staged := true }).entries =
      (c.restageAt e content).entries := by
    simp only [update, restageAt, List.map_map]
    apply List.map_congr_left
    intro x _
    by_cases hx : x.id = e.id
    · simp [hx, (Entry.stage_keeps content x).id, Entry.restage, Entry.changeAt]
    · simp [hx, Entry.changeAt]
  cases hs : e.staged
  · simp only [Bool.not_false, if_true, restageAt, hs] at hentries ⊢
    simp only [← hentries]
    rfl
  · simp only [Bool.not_true, restageAt, hs] at hentries ⊢
    simp only [← hentries]
    rfl

theorem WellFormed.stage_of_not_mem (hp : ∀ e ∈ c.entries, e.path ≠ p.normalize) :
    (c.stage p content).1.id = c.nextId ∧
      (c.stage p content).2 = c.stageNew p.normalize content := by
  have hfind : c.entries.find? (·.path == p.normalize) = none := find?_key_eq_none_iff.mpr hp
  have hnone : c.entries.find? (·.id == c.nextId) = none :=
    find?_key_eq_none_iff.mpr fun e he => h.nextId_not_mem he
  refine ⟨by simp [stage, hfind], ?_⟩
  -- the new entry is not staged yet, and it is found under the fresh id to be staged
  have hentry : ∃ f, Cache.entry? (c.insert p.normalize content) c.nextId = some (Entry.new f) ∧
      (c.insert p.normalize content).entries = c.entries ++ [Entry.new f] ∧
      c.newEntry p.normalize content = { Entry.new f with staged := true } ∧
      f.external = false ∧ f.id = c.nextId := by
    refine ⟨_, ?_, rfl, rfl, rfl, rfl⟩
    unfold entry? insert
    rw [List.find?_append, hnone]
    simp [Entry.new, Entry.id, SourceFile.ofContent]
  obtain ⟨f, hentry, hins, hnew, hf, hid⟩ := hentry
  have hentries : ((c.insert p.normalize content).update c.nextId fun e =>
        { e.setExternal false with staged := true }).entries =
      (c.stageNew p.normalize content).entries := by
    simp only [update, hins, stageNew, List.map_append, hnew]
    congr 1
    · rw [List.map_congr_left (g := id), List.map_id]
      intro x hx
      simp [h.nextId_not_mem hx]
    · have : (Entry.new f).id = c.nextId := hid
      simp [this, Entry.restage_new f hf]
  simp only [stage, hfind, enlist, hentry, Option.any_some]
  have hs : (Entry.new f).staged = false := rfl
  simp only [hs, Bool.not_false, if_true]
  have : (c.stageNew p.normalize content) = { c.insert p.normalize content with
      entries := (c.stageNew p.normalize content).entries
      staged := c.staged ++ [c.nextId] } := rfl
  rw [this, ← hentries]
  rfl

end

/-- What staging does: the file is known, or it is new. -/
theorem WellFormed.stage_cases {c : Cache} (h : c.WellFormed) (p : Path) (content : Text) :
    (∃ e ∈ c.entries, e.path = p.normalize ∧
      (c.stage p content).1.id = e.id ∧ (c.stage p content).2 = c.restageAt e content) ∨
    ((∀ e ∈ c.entries, e.path ≠ p.normalize) ∧
      (c.stage p content).1.id = c.nextId ∧
      (c.stage p content).2 = c.stageNew p.normalize content) := by
  by_cases hp : ∃ e ∈ c.entries, e.path = p.normalize
  · obtain ⟨e, he, hp⟩ := hp
    exact Or.inl ⟨e, he, hp, h.stage_of_mem content he hp⟩
  · have hp : ∀ e ∈ c.entries, e.path ≠ p.normalize := fun e he hep => hp ⟨e, he, hep⟩
    exact Or.inr ⟨hp, h.stage_of_not_mem content hp⟩

/-- The entry of a path after a content was staged for it. -/
def restaged (c : Cache) (p : Path) (content : Text) : Entry :=
  match c.lookup? p with
  | some e => e.restage content
  | none => c.newEntry p.normalize content

/-- Staging a content for a path changes what is found under this path alone. -/
theorem WellFormed.lookup?_stage {c : Cache} (h : c.WellFormed) (p : Path) (content : Text)
    (q : Path) : (c.stage p content).2.lookup? q =
      if q.normalize = p.normalize then some (c.restaged p content) else c.lookup? q := by
  obtain ⟨e, he, hpath, _, heq⟩ | ⟨hno, _, heq⟩ := h.stage_cases p content
  · have hl : c.lookup? p = some e := h.lookup?_eq_some_iff.mpr ⟨he, hpath⟩
    have hmap : (c.restageAt e content).lookup? q =
        (c.lookup? q).map (Entry.changeAt e.id (·.restage content)) := by
      refine find?_key_map (fun x _ => ?_) q.normalize
      exact (Entry.Keeps.changeAt (Entry.restage_keeps content) e.id x).path
    rw [heq, hmap]
    split
    · next hq =>
      have hlq : c.lookup? q = some e := h.lookup?_eq_some_iff.mpr ⟨he, hpath.trans hq.symm⟩
      rw [hlq, Option.map_some, Entry.changeAt_self, restaged, hl]
    · next hq =>
      cases hlq : c.lookup? q with
      | none => rfl
      | some x =>
        obtain ⟨hx, hxpath⟩ := h.lookup?_eq_some_iff.mp hlq
        have hne : x.id ≠ e.id := fun hid =>
          hq (hxpath.symm.trans ((congrArg Entry.path (h.eq_of_id hx he hid)).trans hpath))
        rw [Option.map_some, Entry.changeAt_of_ne hne]
  · have hl : c.lookup? p = none := find?_key_eq_none_iff.mpr hno
    have hnew : (c.newEntry p.normalize content).path = p.normalize := rfl
    have happend : Cache.lookup? (c.stageNew p.normalize content) q =
        (c.lookup? q).or ([c.newEntry p.normalize content].find? (·.path == q.normalize)) :=
      List.find?_append
    rw [heq, happend]
    split
    · next hq =>
      have hlq : c.lookup? q = none := by rwa [lookup?, hq]
      simp [hlq, hnew, hq, restaged, hl]
    · next hq => simp [hnew, Ne.symm hq]

/-- What marking does: the file is known, or nothing happens. -/
theorem WellFormed.markExternal_cases {c : Cache} (h : c.WellFormed) (p : Path) :
    (∃ e ∈ c.entries, e.path = p.normalize ∧
      (c.markExternal p).2 = c.update e.id (·.setExternal true)) ∨
    ((∀ e ∈ c.entries, e.path ≠ p.normalize) ∧ (c.markExternal p).2 = c) := by
  unfold markExternal
  cases hl : c.lookup? p with
  | none => exact Or.inr ⟨find?_key_eq_none_iff.mp hl, rfl⟩
  | some e =>
    obtain ⟨he, hp⟩ := h.lookup?_eq_some_iff.mp hl
    exact Or.inl ⟨e, he, hp, rfl⟩

/-! ## Every operation keeps the invariant -/

/-- A change of the entries, the staged list and the members that keeps ids and paths. -/
theorem WellFormed.map {c c' : Cache} (h : c.WellFormed) (g : Entry → Entry)
    (hentries : c'.entries = c.entries.map g) (hnext : c'.nextId = c.nextId)
    (hsound : ∀ e ∈ c.entries, (g e).Sound)
    (hname : ∀ e ∈ c.entries, (g e).id = e.id ∧ (g e).path = e.path)
    (hstagedNodup : c'.staged.Nodup) (hstagedIn : ∀ id ∈ c'.staged, ∃ e ∈ c.entries, e.id = id)
    (hstaged : ∀ e ∈ c.entries, e.id ∈ c'.staged ↔ (g e).staged = true)
    (hmembersNodup : c'.members.Nodup)
    (hmembersIn : ∀ id ∈ c'.members, ∃ e ∈ c.entries, e.id = id)
    (hranks : ∀ e ∈ c.entries, (g e).rank = c'.members.idxOf? e.id) : c'.WellFormed := by
  -- every entry afterwards comes from one before
  have hmem : ∀ {P : Entry → Prop}, (∀ e ∈ c.entries, P (g e)) → ∀ e ∈ c'.entries, P e := by
    intro P hP e he
    rw [hentries] at he
    obtain ⟨x, hx, rfl⟩ := List.mem_map.mp he
    exact hP x hx
  have hof : ∀ {e : Entry}, e ∈ c.entries → g e ∈ c'.entries := fun he =>
    hentries ▸ List.mem_map_of_mem he
  refine ⟨hmem hsound, ?_, ?_, ?_, hstagedNodup, ?_, hmembersNodup, ?_, ?_⟩
  · have hids : c'.entries.map Entry.id = c.entries.map Entry.id := by
      rw [hentries, List.map_map]
      exact List.map_congr_left fun e he => (hname e he).1
    exact hids ▸ h.ids
  · have hpaths : c'.entries.map Entry.path = c.entries.map Entry.path := by
      rw [hentries, List.map_map]
      exact List.map_congr_left fun e he => (hname e he).2
    exact hpaths ▸ h.paths
  · rw [hnext]
    exact hmem fun e he => (hname e he).1 ▸ h.fresh e he
  · intro id
    constructor
    · intro hid
      obtain ⟨e, he, rfl⟩ := hstagedIn id hid
      exact ⟨g e, hof he, (hname e he).1, (hstaged e he).mp hid⟩
    · rintro ⟨e', he', rfl, hs⟩
      rw [hentries] at he'
      obtain ⟨e, he, rfl⟩ := List.mem_map.mp he'
      rw [(hname e he).1]
      exact (hstaged e he).mpr hs
  · intro id hid
    obtain ⟨e, he, rfl⟩ := hmembersIn id hid
    exact ⟨g e, hof he, (hname e he).1⟩
  · exact hmem fun e he => (hname e he).1 ▸ hranks e he

theorem keep_fits {k : Checkpoint} {c c' : Cache}
    (h : k.Fits c) (hkeep : ∀ e ∈ c.entries, ∃ e' ∈ c'.entries, e.Keeps e') : k.Fits c' := by
  refine ⟨h.membersNodup, h.members, fun s hs => ?_⟩
  obtain ⟨e, he, hid, hfit⟩ := h.entries s hs
  obtain ⟨e', he', hkeeps⟩ := hkeep e he
  refine ⟨e', he', hkeeps.id.trans hid, ?_, ?_, hfit.inCycle, ?_, ?_⟩
  · rw [hkeeps.committed]
    exact hfit.touched
  · rw [hkeeps.id]
    exact hfit.rank
  · rw [hkeeps.id, hkeeps.path]
    exact hfit.file
  · rw [hkeeps.file hfit.touched]
    exact hfit.committed

/-- A change that keeps what is committed keeps the invariant, if the staged list follows it. -/
theorem Sound.map_keeps {c c' : Cache} (h : c.Sound) (g : Entry → Entry)
    (hentries : c'.entries = c.entries.map g) (hnext : c'.nextId = c.nextId)
    (hmembers : c'.members = c.members) (hcheckpoint : c'.checkpoint = c.checkpoint)
    (hkeeps : ∀ e : Entry, e.Keeps (g e)) (hsound : ∀ e ∈ c.entries, (g e).Sound)
    (hstagedNodup : c'.staged.Nodup) (hstagedIn : ∀ id ∈ c'.staged, ∃ e ∈ c.entries, e.id = id)
    (hstaged : ∀ e ∈ c.entries, e.id ∈ c'.staged ↔ (g e).staged = true) : c'.Sound := by
  refine ⟨h.map g hentries hnext hsound (fun e _ => (hkeeps e).name) hstagedNodup hstagedIn hstaged
    (hmembers ▸ h.membersNodup) (hmembers ▸ h.members) fun e he => ?_, fun k hk => ?_⟩
  · rw [(hkeeps e).rank, hmembers]
    exact h.ranks e he
  · refine keep_fits (h.checkpoint k (hcheckpoint ▸ hk)) fun e he => ⟨g e, ?_, hkeeps e⟩
    exact hentries ▸ List.mem_map_of_mem he

theorem mem_staged_restageAt {c : Cache} (h : c.WellFormed) {e : Entry} (he : e ∈ c.entries)
    (content : Text) {id : FileId} :
    id ∈ (c.restageAt e content).staged ↔ id ∈ c.staged ∨ id = e.id := by
  unfold restageAt
  split
  · next hs =>
    have hin := (h.staged_iff he).mpr hs
    exact ⟨Or.inl, fun hid => hid.elim (fun hid => hid) fun hid => hid ▸ hin⟩
  · rw [List.mem_append, List.mem_singleton]

theorem Sound.restageAt {c : Cache} (h : c.Sound) {e : Entry} (he : e ∈ c.entries)
    (content : Text) : (c.restageAt e content).Sound := by
  refine h.map_keeps _ rfl rfl rfl rfl (Entry.Keeps.changeAt (Entry.restage_keeps content) e.id)
    (fun x hx => Entry.changeAt_of (h.entries x hx) ((h.entries x hx).restage content) e.id)
    ?_ ?_ ?_
  · unfold Cache.restageAt
    split
    · exact h.stagedNodup
    · next hs =>
      have : e.id ∉ c.staged := mt (h.staged_iff he).mp hs
      exact List.nodup_append.mpr ⟨h.stagedNodup, by simp, by grind⟩
  · intro id hid
    rcases (mem_staged_restageAt h.toWellFormed he content).mp hid with hid | rfl
    · exact h.stagedIn id hid
    · exact ⟨e, he, rfl⟩
  · intro x hx
    rw [mem_staged_restageAt h.toWellFormed he content, h.staged_iff hx]
    by_cases hid : x.id = e.id
    · simp [hid, Entry.changeAt, Entry.restage]
    · simp [hid, Entry.changeAt]

theorem newEntry_sound (c : Cache) (p : Path) (content : Text) :
    (c.newEntry p content).Sound := by
  refine ⟨SourceFile.ofContent_made .., ?_, ?_, ?_, ?_⟩ <;> simp [newEntry, Entry.new]

theorem Sound.stageNew {c : Cache} (h : c.Sound) {p : Path} (hp : ∀ e ∈ c.entries, e.path ≠ p)
    (content : Text) : (c.stageNew p content).Sound := by
  have hmem : ∀ e, e ∈ (c.stageNew p content).entries ↔
      e ∈ c.entries ∨ e = c.newEntry p content := by
    intro e
    simp [Cache.stageNew]
  have hid : (c.newEntry p content).id = c.nextId := rfl
  -- what is staged or in the cycle is known, so the fresh id is in neither list
  have hfresh : ∀ l : List FileId, (∀ id ∈ l, ∃ e ∈ c.entries, e.id = id) → c.nextId ∉ l := by
    intro l hl hn
    obtain ⟨e, he, heid⟩ := hl _ hn
    exact h.nextId_not_mem he heid
  have hstaged : c.nextId ∉ c.staged := hfresh _ h.stagedIn
  refine ⟨⟨?_, ?_, ?_, ?_, ?_, ?_, h.membersNodup, ?_, ?_⟩, ?_⟩
  · intro e he
    rcases (hmem e).mp he with he | rfl
    · exact h.entries e he
    · exact c.newEntry_sound p content
  · simp only [Cache.stageNew, List.map_append, List.map_cons, List.map_nil, hid]
    refine List.nodup_append.mpr ⟨h.ids, by simp, ?_⟩
    rintro id hin _ hnew rfl
    obtain ⟨e, he, heid⟩ := List.mem_map.mp hin
    exact h.nextId_not_mem he (heid.trans (List.mem_singleton.mp hnew))
  · simp only [Cache.stageNew, List.map_append, List.map_cons, List.map_nil]
    refine List.nodup_append.mpr ⟨h.paths, by simp, ?_⟩
    rintro q hin _ hnew rfl
    obtain ⟨e, he, hep⟩ := List.mem_map.mp hin
    exact hp e he (hep.trans (List.mem_singleton.mp hnew))
  · intro e he
    show e.id < c.nextId + 1
    rcases (hmem e).mp he with he | rfl
    · exact Nat.lt_succ_of_lt (h.fresh e he)
    · exact Nat.lt_succ_self _
  · exact List.nodup_append.mpr ⟨h.stagedNodup, by simp, by grind⟩
  · intro id
    show id ∈ c.staged ++ [c.nextId] ↔ _
    rw [List.mem_append, h.staged, List.mem_singleton]
    constructor
    · rintro (⟨e, he, heid⟩ | rfl)
      · exact ⟨e, (hmem e).mpr (Or.inl he), heid⟩
      · exact ⟨_, (hmem _).mpr (Or.inr rfl), hid, rfl⟩
    · rintro ⟨e, he, heid, hs⟩
      rcases (hmem e).mp he with he | rfl
      · exact Or.inl ⟨e, he, heid, hs⟩
      · exact Or.inr (heid.symm.trans hid)
  · intro id hm
    obtain ⟨e, he, heid⟩ := h.members id hm
    exact ⟨e, (hmem e).mpr (Or.inl he), heid⟩
  · intro e he
    rcases (hmem e).mp he with he | rfl
    · exact h.ranks e he
    · rw [hid]
      exact (List.idxOf?_eq_none_iff.mpr (hfresh _ h.members)).symm
  · intro k hk
    exact keep_fits (h.checkpoint k hk) fun e he =>
      ⟨e, (hmem e).mpr (Or.inl he), Entry.Keeps.refl e⟩

theorem Sound.stage {c : Cache} (h : c.Sound) (p : Path) (content : Text) :
    (c.stage p content).2.Sound := by
  obtain ⟨e, he, _, _, heq⟩ | ⟨hp, _, heq⟩ := h.stage_cases p content
  · exact heq ▸ h.restageAt he content
  · exact heq ▸ h.stageNew hp content

theorem Sound.markExternal {c : Cache} (h : c.Sound) (p : Path) : (c.markExternal p).2.Sound := by
  obtain ⟨e, he, _, heq⟩ | ⟨_, heq⟩ := h.markExternal_cases p
  · rw [heq]
    have hstaged : ∀ x ∈ c.entries, x.id ∈ c.staged ↔
        (x.changeAt e.id (·.setExternal true)).staged = true := by
      intro x hx
      rw [h.staged_iff hx]
      exact Entry.changeAt_of (P := fun y => x.staged = true ↔ y.staged = true) Iff.rfl (by simp) _
    exact h.map_keeps (Entry.changeAt e.id (·.setExternal true)) rfl rfl rfl rfl
      (Entry.Keeps.changeAt (Entry.setExternal_keeps true) e.id)
      (fun x hx => Entry.changeAt_of (h.entries x hx) ((h.entries x hx).setExternal true) e.id)
      h.stagedNodup h.stagedIn hstaged
  · rw [heq]
    exact h

end Cache

end IncrementalBuild
