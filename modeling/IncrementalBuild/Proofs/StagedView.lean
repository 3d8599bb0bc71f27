import IncrementalBuild.Proofs.CacheCycle
/-!
# What a cache has staged

The staged files of a cache, and what each operation makes of them: staging puts a file under its
path, marking changes a mark, a reset commits them all in their order, a rollback drops them, and
a prune keeps those it is told to keep.
-/
namespace IncrementalBuild

/-- A function of a file that does not look at its mark. -/
def SourceFile.Unmarked {α : Type} (g : SourceFile → α) : Prop :=
  ∀ (f : SourceFile) (external : Bool), g { f with external } = g f

namespace Cache

def stagedEntries (c : Cache) : List Entry := c.staged.filterMap c.entry?

theorem stagedFiles_eq (c : Cache) : c.stagedFiles = c.stagedEntries.map Entry.next := rfl

section
variable {c : Cache} (h : c.WellFormed)
include h

theorem WellFormed.mem_stagedEntries {e : Entry} :
    e ∈ c.stagedEntries ↔ e ∈ c.entries ∧ e.staged = true := by
  unfold stagedEntries
  rw [List.mem_filterMap]
  constructor
  · rintro ⟨id, hid, he⟩
    obtain ⟨hm, rfl⟩ := h.entry?_eq_some_iff.mp he
    exact ⟨hm, (h.staged_iff hm).mp hid⟩
  · rintro ⟨hm, hs⟩
    exact ⟨e.id, (h.staged_iff hm).mpr hs, h.entry?_of_mem hm⟩

theorem WellFormed.stagedEntries_sound {e : Entry} (he : e ∈ c.stagedEntries) : e.Sound :=
  h.entries e (h.mem_stagedEntries.mp he).1

theorem WellFormed.stagedEntries_id : c.stagedEntries.map Entry.id = c.staged :=
  map_key_filterMap_find? h.stagedIn

theorem WellFormed.mem_stagedFiles {f : SourceFile} :
    f ∈ c.stagedFiles ↔ ∃ e ∈ c.entries, e.staged = true ∧ e.next = f := by
  rw [stagedFiles_eq, List.mem_map]
  constructor
  · rintro ⟨e, he, hf⟩
    obtain ⟨hm, hs⟩ := h.mem_stagedEntries.mp he
    exact ⟨e, hm, hs, hf⟩
  · rintro ⟨e, hm, hs, hf⟩
    exact ⟨e, h.mem_stagedEntries.mpr ⟨hm, hs⟩, hf⟩

theorem WellFormed.stagedFiles_id : c.stagedFiles.map SourceFile.id = c.staged := by
  rw [stagedFiles_eq, List.map_map, ← h.stagedEntries_id]
  apply List.map_congr_left
  intro e he
  exact (h.stagedEntries_sound he).next.2.1

theorem WellFormed.stagedFiles_path :
    c.stagedFiles.map SourceFile.path = c.stagedEntries.map Entry.path := by
  rw [stagedFiles_eq, List.map_map]
  apply List.map_congr_left
  intro e he
  exact (h.stagedEntries_sound he).next.2.2

theorem WellFormed.stagedFiles_made {f : SourceFile} (hf : f ∈ c.stagedFiles) : f.Made := by
  obtain ⟨e, he, _, rfl⟩ := h.mem_stagedFiles.mp hf
  exact (h.entries e he).next.1

theorem WellFormed.mem_staged_path {p : Path} :
    p ∈ c.stagedFiles.map SourceFile.path ↔
      ∃ e ∈ c.entries, e.staged = true ∧ e.path = p := by
  rw [h.stagedFiles_path, List.mem_map]
  constructor
  · rintro ⟨e, he, hp⟩
    exact ⟨e, (h.mem_stagedEntries.mp he).1, (h.mem_stagedEntries.mp he).2, hp⟩
  · rintro ⟨e, he, hs, hp⟩
    exact ⟨e, h.mem_stagedEntries.mpr ⟨he, hs⟩, hp⟩

theorem WellFormed.staged_path_iff {e : Entry} (he : e ∈ c.entries) :
    e.path ∈ c.stagedFiles.map SourceFile.path ↔ e.staged = true := by
  rw [h.mem_staged_path]
  constructor
  · rintro ⟨x, hx, hs, hp⟩
    rwa [← h.eq_of_path hx he hp]
  · intro hs
    exact ⟨e, he, hs, rfl⟩

theorem WellFormed.isStaged_of_mem {p : Path} {e : Entry} (he : e ∈ c.entries)
    (hp : e.path = p.normalize) : c.isStaged p = e.staged := by
  unfold isStaged
  rw [h.lookup?_eq_some_iff.mpr ⟨he, hp⟩, Option.any_some]

theorem WellFormed.isStaged_iff {p : Path} :
    c.isStaged p = true ↔ p.normalize ∈ c.stagedFiles.map SourceFile.path := by
  rw [h.mem_staged_path]
  unfold isStaged
  rw [Option.any_eq_true]
  constructor
  · rintro ⟨e, hl, hs⟩
    obtain ⟨he, hp⟩ := h.lookup?_eq_some_iff.mp hl
    exact ⟨e, he, hs, hp⟩
  · rintro ⟨e, he, hs, hp⟩
    exact ⟨e, h.lookup?_eq_some_iff.mpr ⟨he, hp⟩, hs⟩

theorem WellFormed.stagedFile?_eq_some_iff {id : FileId} {f : SourceFile} :
    c.stagedFile? id = some f ↔ f ∈ c.stagedFiles ∧ f.id = id := by
  unfold stagedFile?
  rw [h.mem_stagedFiles]
  simp only [Option.map_eq_some_iff, Option.filter_eq_some_iff]
  constructor
  · rintro ⟨e, ⟨he, hs⟩, rfl⟩
    obtain ⟨hm, rfl⟩ := h.entry?_eq_some_iff.mp he
    exact ⟨⟨e, hm, hs, rfl⟩, (h.entries e hm).next.2.1⟩
  · rintro ⟨⟨e, hm, hs, rfl⟩, rfl⟩
    have hid := (h.entries e hm).next.2.1
    exact ⟨e, ⟨hid ▸ h.entry?_of_mem hm, hs⟩, rfl⟩

end

/-! ## Staging puts a file under its path -/

theorem entry?_map {c c' : Cache} {g : Entry → Entry} (hentries : c'.entries = c.entries.map g)
    (hg : ∀ e ∈ c.entries, (g e).id = e.id) (id : FileId) :
    c'.entry? id = (c.entry? id).map g := by
  unfold entry?
  rw [hentries, find?_key_map hg]

theorem filterMap_entry?_map {c c' : Cache} {g : Entry → Entry}
    (hentries : c'.entries = c.entries.map g) (hg : ∀ e ∈ c.entries, (g e).id = e.id)
    (ids : List FileId) : ids.filterMap c'.entry? = (ids.filterMap c.entry?).map g := by
  rw [List.map_filterMap]
  exact List.filterMap_congr fun id _ => entry?_map hentries hg id

section
variable {c : Cache} (h : c.WellFormed) {p : Path} (content : Text) {α : Type}
  (g : SourceFile → α)
include h

/-- What a restaged entry stands for among the staged items, under the path of each. -/
theorem WellFormed.restaged_item {e : Entry} (he : e ∈ c.entries) {x : Entry}
    (hx : x ∈ c.entries) :
    ((x.changeAt e.id (·.restage content)).next.path,
        g (x.changeAt e.id (·.restage content)).next) =
      if x.next.path = e.path then (e.path, g (e.restage content).next)
      else (x.next.path, g x.next) := by
  have hpath : (e.restage content).next.path = e.path :=
    ((h.entries e he).restage content).next.2.2.trans (Entry.restage_keeps content e).path
  rw [(h.entries x hx).next.2.2]
  by_cases hxe : x.path = e.path
  · obtain rfl := h.eq_of_path hx he hxe
    rw [if_pos rfl, Entry.changeAt_self, hpath]
  · have hne : x.id ≠ e.id := fun hid => hxe (h.eq_of_id hx he hid ▸ rfl)
    rw [if_neg hxe, Entry.changeAt_of_ne hne, (h.entries x hx).next.2.2]

theorem WellFormed.stagedEntries_restageAt {e : Entry} (he : e ∈ c.entries) :
    (c.restageAt e content).stagedEntries =
      (if e.staged then c.stagedEntries else c.stagedEntries ++ [e]).map
        (Entry.changeAt e.id (·.restage content)) := by
  have hkeeps := Entry.Keeps.changeAt (Entry.restage_keeps content) e.id
  unfold stagedEntries
  rw [filterMap_entry?_map (c := c) rfl fun x _ => (hkeeps x).id]
  congr 1
  show (if e.staged then c.staged else c.staged ++ [e.id]).filterMap c.entry? = _
  split
  · rfl
  · rw [List.filterMap_append, List.filterMap_cons, h.entry?_of_mem he]
    rfl

theorem WellFormed.stagedFiles_restageAt {e : Entry} (he : e ∈ c.entries) :
    ((c.restageAt e content).stagedFiles.map fun f => (f.path, g f)) =
      put (c.stagedFiles.map fun f => (f.path, g f)) e.path (g (e.restage content).next) := by
  have hkeys : e.path ∈ (c.stagedFiles.map fun f => (f.path, g f)).map Prod.fst ↔
      e.staged = true := by
    rw [List.map_map]
    exact h.staged_path_iff he
  -- the items of the entries that were staged before, as `put` would write them
  have hold : (c.stagedEntries.map (Entry.changeAt e.id (·.restage content))).map
        (fun x => (x.next.path, g x.next)) =
      (c.stagedFiles.map fun f => (f.path, g f)).map fun x =>
        if x.1 = e.path then (e.path, g (e.restage content).next) else x := by
    rw [stagedFiles_eq, List.map_map, List.map_map, List.map_map]
    exact List.map_congr_left fun x hx => h.restaged_item content g he (h.mem_stagedEntries.mp hx).1
  rw [stagedFiles_eq (c.restageAt e content), h.stagedEntries_restageAt content he, List.map_map]
  unfold put
  split
  · next hs =>
    rw [if_pos (hkeys.mpr hs)]
    exact hold
  · next hs =>
    have hno := mt hkeys.mp hs
    -- the path of a file that was not staged is not among the old items
    have hsame : ((c.stagedFiles.map fun f => (f.path, g f)).map fun x =>
        if x.1 = e.path then (e.path, g (e.restage content).next) else x) =
        c.stagedFiles.map fun f => (f.path, g f) := by
      refine (List.map_congr_left fun x hx => ?_).trans (List.map_id _)
      have hne : x.1 ≠ e.path := fun hxe => hno (hxe ▸ List.mem_map_of_mem hx)
      exact if_neg hne
    have hlast := h.restaged_item content g he he
    rw [(h.entries e he).next.2.2, if_pos rfl] at hlast
    rw [if_neg hno, List.map_append, List.map_append]
    exact congrArg₂ (· ++ ·) (hold.trans hsame) (congrArg (fun x => [x]) hlast)

theorem WellFormed.entry?_stageNew (q : Path) (id : FileId) :
    Cache.entry? (c.stageNew q content) id =
      if id = c.nextId then some (c.newEntry q content) else c.entry? id := by
  have hnew : (c.newEntry q content).id = c.nextId := rfl
  unfold entry? stageNew
  rw [List.find?_append]
  split
  · next hid =>
    rw [hid, find?_key_eq_none_iff.mpr fun e he => h.nextId_not_mem he]
    simp [hnew]
  · next hid => simp [hnew, Ne.symm hid]

theorem WellFormed.stagedEntries_stageNew (q : Path) :
    Cache.stagedEntries (c.stageNew q content) = c.stagedEntries ++ [c.newEntry q content] := by
  have hold : c.staged.filterMap (Cache.entry? (c.stageNew q content)) =
      c.staged.filterMap c.entry? := by
    apply List.filterMap_congr
    intro id hid
    obtain ⟨e, he, rfl⟩ := h.stagedIn id hid
    rw [h.entry?_stageNew content, if_neg (h.nextId_not_mem he)]
  unfold stagedEntries
  rw [show (c.stageNew q content).staged = c.staged ++ [c.nextId] from rfl,
    List.filterMap_append, hold, List.filterMap_cons, h.entry?_stageNew content, if_pos rfl,
    List.filterMap_nil]

theorem WellFormed.stagedFiles_stageNew (q : Path) :
    (c.stageNew q content).stagedFiles = c.stagedFiles ++ [(c.newEntry q content).file] := by
  rw [stagedFiles_eq, h.stagedEntries_stageNew content, List.map_append]
  rfl

end

/-- Staging a content for a path puts a file with that content under the path. -/
theorem Sound.stagedFiles_stage {c : Cache} (h : c.Sound) (p : Path) (content : Text) :
    ∃ f ∈ (c.stage p content).2.stagedFiles,
      f.id = (c.stage p content).1.id ∧ f.path = p.normalize ∧
      f.hash = ContentHash.ofText content ∧
      ∀ {α : Type} (g : SourceFile → α),
        ((c.stage p content).2.stagedFiles.map fun f => (f.path, g f)) =
          put (c.stagedFiles.map fun f => (f.path, g f)) p.normalize (g f) := by
  obtain ⟨e, he, hp, hid, heq⟩ | ⟨hp, hid, heq⟩ := h.stage_cases p content
  · have hsound := (h.entries e he).restage content
    have hkeeps := Entry.restage_keeps content e
    refine ⟨(e.restage content).next, ?_, ?_, ?_, (h.entries e he).restage_next_hash content,
      fun g => ?_⟩
    · rw [heq, (h.restageAt he content).mem_stagedFiles]
      exact ⟨e.restage content, List.mem_map.mpr ⟨e, he, Entry.changeAt_self _ e⟩, rfl, rfl⟩
    · rw [hid, hsound.next.2.1, hkeeps.id]
    · rw [hsound.next.2.2, hkeeps.path, hp]
    · rw [heq, h.stagedFiles_restageAt content g he, hp]
  · have hno : p.normalize ∉ (c.stagedFiles.map SourceFile.path) := by
      rw [h.mem_staged_path]
      rintro ⟨e, he, _, hep⟩
      exact hp e he hep
    refine ⟨(c.newEntry p.normalize content).file, ?_, ?_, rfl, rfl, fun g => ?_⟩
    · rw [heq, h.stagedFiles_stageNew content]
      simp
    · rw [hid]
      rfl
    · rw [heq, h.stagedFiles_stageNew content, List.map_append]
      unfold put
      rw [if_neg]
      · rfl
      · rw [List.map_map]
        exact hno

/-! ## Staging one more file -/

/-- A file the cache knows is staged after all others if it was not staged. -/
theorem WellFormed.stagedEntries_restage {c : Cache} (h : c.WellFormed) {e : Entry}
    (he : e ∈ c.entries) {p : Path} (hp : e.path = p.normalize) (hs : e.staged = false)
    (content : Text) :
    (c.stage p content).2.stagedEntries = c.stagedEntries ++ [e.restage content] := by
  have hother : ∀ x ∈ c.stagedEntries, x.id ≠ e.id := by
    intro x hx hxe
    obtain ⟨hin, hxs⟩ := h.mem_stagedEntries.mp hx
    rw [h.eq_of_id hin he hxe, hs] at hxs
    cases hxs
  rw [(h.stage_of_mem content he hp).2, h.stagedEntries_restageAt content he, hs]
  exact Entry.map_changeAt_last hother _

/-- Staging a content for a path that is not staged puts one entry after all others. -/
theorem Sound.stagedEntries_stage {c : Cache} (h : c.Sound) {p : Path}
    (hp : c.isStaged p = false) (content : Text) :
    ∃ e, (c.stage p content).2.stagedEntries = c.stagedEntries ++ [e] ∧
      e.id = (c.stage p content).1.id ∧ e.path = p.normalize ∧
      e.next.hash = ContentHash.ofText content ∧ e.external = false := by
  obtain ⟨e, he, hpath, hid, _⟩ | ⟨_, hid, heq⟩ := h.stage_cases p content
  · have hs : e.staged = false := (h.isStaged_of_mem he hpath).symm.trans hp
    have hkeeps := Entry.restage_keeps content e
    exact ⟨e.restage content, h.stagedEntries_restage he hpath hs content,
      hkeeps.id.trans hid.symm, hkeeps.path.trans hpath,
      (h.entries e he).restage_next_hash content, Entry.setExternal_external false⟩
  · refine ⟨c.newEntry p.normalize content, ?_, hid.symm, rfl, rfl, rfl⟩
    rw [heq, h.stagedEntries_stageNew content]

theorem Sound.stagedEntries_mark_last {c : Cache} (h : c.Sound) {p : Path} {entries : List Entry}
    {e : Entry} (hstaged : c.stagedEntries = entries ++ [e]) (hp : e.path = p.normalize) :
    (c.markExternal p).2.stagedEntries = entries ++ [e.setExternal true] := by
  have hlast : e ∈ c.stagedEntries := hstaged ▸ List.mem_append_right _ (List.mem_singleton_self e)
  have he := (h.mem_stagedEntries.mp hlast).1
  obtain ⟨x, hx, hpath, heq⟩ | ⟨hno, _⟩ := h.markExternal_cases p
  · obtain rfl : x = e := h.eq_of_path hx he (hpath.trans hp.symm)
    have hother : ∀ y ∈ entries, y.id ≠ x.id := by
      have hnodup : (c.stagedEntries.map Entry.id).Nodup := h.stagedEntries_id ▸ h.stagedNodup
      rw [hstaged, List.map_append] at hnodup
      intro y hy
      exact (List.nodup_append.mp hnodup).2.2 _ (List.mem_map_of_mem hy) _ (by simp)
    have hkeeps := Entry.Keeps.changeAt (Entry.setExternal_keeps true) x.id
    rw [heq]
    unfold stagedEntries at hstaged ⊢
    rw [filterMap_entry?_map (c := c) rfl fun y _ => (hkeeps y).id]
    show (c.staged.filterMap c.entry?).map _ = _
    rw [hstaged]
    exact Entry.map_changeAt_last hother _
  · exact absurd hp (hno e he)

/-! ## The other operations -/

theorem WellFormed.stagedFiles_markExternal {c : Cache} (h : c.WellFormed) (p : Path) {α : Type}
    {g : SourceFile → α} (hg : SourceFile.Unmarked g) :
    (c.markExternal p).2.stagedFiles.map g = c.stagedFiles.map g := by
  obtain ⟨e, he, _, heq⟩ | ⟨_, heq⟩ := h.markExternal_cases p
  · rw [heq]
    have hkeeps := Entry.Keeps.changeAt (Entry.setExternal_keeps true) e.id
    unfold stagedFiles
    rw [show (c.update e.id (·.setExternal true)).staged = c.staged from rfl,
      filterMap_entry?_map (c := c) rfl fun x _ => (hkeeps x).id, List.map_map, List.map_map,
      List.map_map]
    apply List.map_congr_left
    intro x _
    obtain ⟨mark, hmark⟩ := Entry.setExternal_next (e := x) true
    refine Entry.changeAt_of (P := fun y => g y.next = g x.next) rfl ?_ e.id
    rw [hmark, hg]
  · rw [heq]

theorem WellFormed.files_commit_marked {c : Cache} (h : c.WellFormed) :
    c.commit.files = c.stagedEntries.map fun e => { e.next with external := e.external } := by
  unfold files
  rw [show c.commit.members = c.staged from rfl,
    filterMap_entry?_map c.commit_entries fun e he => (h.commitEntry_name he).1, List.map_map]
  apply List.map_congr_left
  intro e he
  obtain ⟨hm, hs⟩ := h.mem_stagedEntries.mp he
  obtain ⟨rank, _, heq⟩ := h.commitEntry_of_staged hm hs
  simp only [Function.comp_apply, heq]
  rfl

theorem WellFormed.files_commit {c : Cache} (h : c.WellFormed) {α : Type} {g : SourceFile → α}
    (hg : SourceFile.Unmarked g) : c.commit.files.map g = c.stagedFiles.map g := by
  rw [h.files_commit_marked, stagedFiles_eq, List.map_map, List.map_map]
  exact List.map_congr_left fun e _ => hg e.next e.external

theorem stagedFiles_undo (c : Cache) (k : Checkpoint) : (c.undo k).stagedFiles = [] := rfl

theorem Sound.filterMap_spared {c : Cache} (h : c.Sound) (keep : List Path) (ids : List FileId) :
    (c.spared keep ids).filterMap (Cache.entry? (c.prune keep).2) =
      ((ids.filterMap c.entry?).filter (·.path.among keep)).map (c.spare keep) := by
  unfold spared
  rw [List.filterMap_filter, List.filter_filterMap, List.map_filterMap]
  apply List.filterMap_congr
  intro id _
  rw [h.entry?_prune keep]
  cases hentry : c.entry? id with
  | none => simp
  | some e =>
    obtain ⟨he, rfl⟩ := h.entry?_eq_some_iff.mp hentry
    rw [h.spares_eq keep he]
    cases hp : e.path.among keep <;> simp [Option.filter, hp]

theorem Sound.files_prune {c : Cache} (h : c.Sound) (keep : List Path) :
    (c.prune keep).2.files = c.files.filter (·.path.among keep) := by
  have hmembers : (c.prune keep).2.members = c.spared keep c.members := by
    rw [h.prune_eq keep]
    rfl
  unfold files
  rw [hmembers, h.filterMap_spared keep, List.map_map, List.filter_map]
  rfl

theorem Sound.stagedFiles_prune {c : Cache} (h : c.Sound) (keep : List Path) :
    (c.prune keep).2.stagedFiles = c.stagedFiles.filter (·.path.among keep) := by
  have hstaged : (c.prune keep).2.staged = c.spared keep c.staged := by
    rw [h.prune_eq keep]
    rfl
  unfold stagedFiles
  rw [hstaged, h.filterMap_spared keep, List.map_map, List.filter_map]
  congr 1
  apply List.filter_congr
  intro e he
  have he := (h.mem_stagedEntries.mp he).1
  rw [Function.comp_apply, (h.entries e he).next.2.2]

end Cache

end IncrementalBuild
