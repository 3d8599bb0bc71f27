import IncrementalBuild.Proofs.CommittedView
import IncrementalBuild.Proofs.DiscoverySearch
/-!
# Staging what was just committed

When the files of a cycle are staged again with what the cycle was made of, the cache that holds
the cycle comes to stage the same files: the same ids, contents, versions and marks, in the same
order. Contents are told apart by their hashes, on which both passes rely, so no two contents need
to have different hashes.

The pass that made the cycle and the pass that repeats it go in step. What the first pass will have
staged in the end is known, since it is the cycle, and each of its steps only adds to what is
staged; so every step knows which file of the cycle it stages.
-/
namespace IncrementalBuild

/-- The file that a reset would commit for a staged entry. -/
def Entry.upcoming (e : Entry) : SourceFile := { e.next with external := e.external }

theorem Entry.Sound.upcoming {e : Entry} (h : e.Sound) :
    e.upcoming.id = e.id ∧ e.upcoming.path = e.path :=
  h.next.2

/-- A committed file that is staged with a content of its hash stays as it is. -/
theorem Entry.restage_next_of_hash {e : Entry} (hc : e.committed.isSome) (hp : e.pending = none)
    {content : Text} (hash : e.file.hash = ContentHash.ofText content) :
    (e.restage content).next = e.file := by
  have hnew : e.committed.isNone = false := by
    rw [← Option.not_isSome, hc]
    rfl
  have hstage : e.stage content = e := by
    simp [Entry.stage, hnew, hp, hash]
  simp [Entry.restage, Entry.next, hstage, Entry.setExternal, hp, hnew]

namespace Cache

def upcoming (c : Cache) : List SourceFile := c.stagedEntries.map Entry.upcoming

theorem upcoming_map (c : Cache) {α : Type} {g : SourceFile → α} (hg : SourceFile.Unmarked g) :
    c.upcoming.map g = c.stagedFiles.map g := by
  unfold upcoming
  rw [stagedFiles_eq, List.map_map, List.map_map]
  exact List.map_congr_left fun e _ => hg e.next e.external

theorem upcoming_of_append {c c' : Cache} {entries : List Entry}
    (h : c'.stagedEntries = c.stagedEntries ++ entries) :
    c'.upcoming = c.upcoming ++ entries.map Entry.upcoming := by
  rw [upcoming, h, List.map_append]
  rfl

section
variable {c : Cache} (h : c.WellFormed)
include h

theorem WellFormed.files_commit_eq : c.commit.files = c.upcoming := h.files_commit_marked

theorem WellFormed.isStaged_upcoming {p : Path} :
    c.isStaged p = true ↔ p.normalize ∈ c.upcoming.map SourceFile.path := by
  rw [h.isStaged_iff, c.upcoming_map fun _ _ => rfl]

/-- The references of a staged file are those of the upcoming file with its id. -/
theorem WellFormed.stagedFile?_references (id : FileId) :
    (c.stagedFile? id).map SourceFile.references =
      (c.upcoming.find? (·.id == id)).map SourceFile.references := by
  have hids : (c.upcoming.map SourceFile.id).Nodup := by
    rw [c.upcoming_map fun _ _ => rfl, h.stagedFiles_id]
    exact h.stagedNodup
  ext references
  simp only [Option.map_eq_some_iff, h.stagedFile?_eq_some_iff, find?_key_eq_some_iff hids]
  unfold upcoming
  rw [stagedFiles_eq]
  constructor
  · rintro ⟨_, ⟨hf, rfl⟩, rfl⟩
    obtain ⟨e, he, rfl⟩ := List.mem_map.mp hf
    exact ⟨e.upcoming, ⟨List.mem_map_of_mem he, rfl⟩, rfl⟩
  · rintro ⟨_, ⟨hf, rfl⟩, rfl⟩
    obtain ⟨e, he, rfl⟩ := List.mem_map.mp hf
    exact ⟨e.next, ⟨List.mem_map_of_mem he, rfl⟩, rfl⟩

end

/-! ## One more file -/

/-- What staging a content for a path puts after all other files, and what a mark makes of it. -/
structure Adds (c : Cache) (p : Path) (content : Text) (w : SourceFile) : Prop where
  staged : (c.stage p content).2.upcoming = c.upcoming ++ [w]
  marked : ((c.stage p content).2.markExternal p).2.upcoming =
    c.upcoming ++ [{ w with external := true }]
  id : (c.stage p content).1.id = w.id
  path : w.path = p.normalize
  hash : w.hash = ContentHash.ofText content
  external : w.external = false

section
variable {c : Cache} (h : c.Sound) {p : Path} (hp : c.isStaged p = false) (content : Text)
include h hp

theorem Sound.adds : ∃ w, c.Adds p content w := by
  obtain ⟨e, happended, hid, hpath, hash, hexternal⟩ := h.stagedEntries_stage hp content
  have hmarked := (h.stage p content).stagedEntries_mark_last happended hpath
  have hlast : e ∈ (c.stage p content).2.stagedEntries :=
    happended ▸ List.mem_append_right _ (List.mem_singleton_self e)
  have hsound := (h.stage p content).stagedEntries_sound hlast
  obtain ⟨mark, hnext⟩ := Entry.setExternal_next (e := e) true
  have hsetExternal : (e.setExternal true).upcoming = { e.upcoming with external := true } := by
    unfold Entry.upcoming
    rw [hnext, Entry.setExternal_external true]
  refine ⟨e.upcoming, upcoming_of_append happended, ?_, ?_, ?_, hash, hexternal⟩
  · rw [upcoming_of_append hmarked, List.map_singleton, hsetExternal]
  · exact hid.symm.trans hsound.upcoming.1.symm
  · exact hsound.upcoming.2.trans hpath

/-- A file of the committed cycle that is staged with a content of its hash is added as it was
committed. -/
theorem Sound.adds_again {base : Cache} (hbase : base.Sound) (hv : c.view = base.view)
    {f : SourceFile} (hf : f ∈ base.files) (hpath : f.path = p.normalize)
    (hash : f.hash = ContentHash.ofText content) :
    c.Adds p content { f with external := false } := by
  -- the entry of the file is the one under its path, and it is committed and has nothing pending
  have hfile : f ∈ c.files := by rwa [h.files_eq, hv, ← hbase.files_eq]
  obtain ⟨e, he, hin, rfl⟩ := h.mem_files.mp hfile
  have hs : e.staged = false := (h.isStaged_of_mem he hpath).symm.trans hp
  have hnext := Entry.restage_next_of_hash ((h.entries e he).inCycle hin)
    (h.pending_of_not_staged he hs) hash
  have hupcoming : (e.restage content).upcoming = { e.file with external := false } := by
    rw [Entry.upcoming, hnext]
    congr 1
    exact Entry.setExternal_external false
  obtain ⟨w, hw⟩ := h.adds hp content
  have hstaged := hw.staged
  rw [upcoming_of_append (h.stagedEntries_restage he hpath hs content), List.map_singleton,
    hupcoming] at hstaged
  have hsame := List.append_cancel_left hstaged
  rw [← List.singleton_inj.mp hsame] at hw
  exact hw

end

/-! ## Two passes in step -/

/-- The cache `c'` shows the cycle of `base` and would commit the same files next as `c`. -/
structure Echoes (base c c' : Cache) : Prop where
  sound : c.Sound
  sound' : c'.Sound
  view : c'.view = base.view
  upcoming : c'.upcoming = c.upcoming

namespace Echoes

variable {base c c' : Cache} (h : Echoes base c c')
include h

theorem isStaged (p : Path) : c'.isStaged p = c.isStaged p := by
  rw [Bool.eq_iff_iff, h.sound'.isStaged_upcoming, h.sound.isStaged_upcoming, h.upcoming]

/-- If the file that one pass adds is one of the cycle, but for its mark, then the other pass adds
it too. -/
theorem adds (hbase : base.Sound) {p : Path} (hp : c.isStaged p = false) {content : Text}
    {w : SourceFile} (hw : c.Adds p content w) {external : Bool}
    (hin : { w with external } ∈ base.files) : c'.Adds p content w := by
  have hagain : c'.Adds p content { w with external := false } :=
    h.sound'.adds_again (f := { w with external }) ((h.isStaged p).trans hp) content hbase h.view
      hin hw.path hw.hash
  have hsame : ({ w with external := false } : SourceFile) = w := by rw [← hw.external]
  rwa [hsame] at hagain

theorem stage (hbase : base.Sound) {p : Path} (hp : c.isStaged p = false) (content : Text)
    (hend : (c.stage p content).2.upcoming <+: base.files) :
    Echoes base (c.stage p content).2 (c'.stage p content).2 := by
  obtain ⟨w, hw⟩ := h.sound.adds hp content
  have hin : { w with external := w.external } ∈ base.files := by
    refine hend.subset ?_
    rw [hw.staged]
    exact List.mem_append_right _ (List.mem_singleton_self w)
  refine ⟨h.sound.stage p content, h.sound'.stage p content,
    (h.sound'.view_stage p content).trans h.view, ?_⟩
  rw [(h.adds hbase hp hw hin).staged, hw.staged, h.upcoming]

/-- Both passes fetch a file, and it has the same id in both. -/
theorem fetch (hbase : base.Sound) {p : Path} (hp : c.isStaged p = false) (content : Text)
    (hend : ((c.stage p content).2.markExternal p).2.upcoming <+: base.files) :
    Echoes base ((c.stage p content).2.markExternal p).2
        ((c'.stage p content).2.markExternal p).2 ∧
      (c'.stage p content).1.id = (c.stage p content).1.id := by
  obtain ⟨w, hw⟩ := h.sound.adds hp content
  have hin : { w with external := true } ∈ base.files := by
    refine hend.subset ?_
    rw [hw.marked]
    exact List.mem_append_right _ (List.mem_singleton_self _)
  have hw' := h.adds hbase hp hw hin
  have hs := h.sound.stage p content
  have hs' := h.sound'.stage p content
  refine ⟨⟨hs.markExternal p, hs'.markExternal p, ?_, ?_⟩, hw'.id.trans hw.id.symm⟩
  · exact (hs'.view_markExternal p).trans ((h.sound'.view_stage p content).trans h.view)
  · rw [hw'.marked, hw.marked, h.upcoming]

end Echoes

end Cache

end IncrementalBuild
