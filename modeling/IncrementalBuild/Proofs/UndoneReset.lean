import IncrementalBuild.Proofs.ReachableCaches
/-!
# Resets that are undone

A rollback takes a reset back, whatever was staged and marked between the two: all that the cache
shows of its committed cycles is as it was before the reset, nothing is staged, and there is
nothing more to undo. If the same files are staged again in the same order, the next reset reports
what the undone one did.
-/
namespace IncrementalBuild.Cache

/-- Two caches that show the same committed cycle, and the same of every file that the first of
them has ever committed. -/
structure ShowsCommitted (c c' : Cache) : Prop extends c.ShowsSame c' where
  size : c'.size = c.size
  file? : ∀ id e, c.entry? id = some e → e.committed.isSome → c'.file? id = c.file? id
  get? : ∀ p e, c.lookup? p = some e → e.committed.isSome → c'.get? p = c.get? p
  locate? : ∀ (s : Span) e, c.entry? s.file = some e → e.committed.isSome →
    c'.locate? s = c.locate? s

/-! ## Files that were committed -/

/-- An entry that was committed has the same file in every cache where it looks the same. -/
theorem file_of_settled {found found' : Option Entry} {e : Entry} (he : found = some e)
    (hc : e.committed.isSome)
    (h : (found'.filter (·.committed.isSome)).map Entry.settled =
      (found.filter (·.committed.isSome)).map Entry.settled) :
    found'.map Entry.file = found.map Entry.file := by
  have hkept : found.filter (·.committed.isSome) = some e :=
    Option.filter_eq_some_iff.mpr ⟨he, hc⟩
  rw [hkept, Option.map_some] at h
  obtain ⟨e', he', hsettled⟩ := Option.map_eq_some_iff.mp h
  rw [(Option.filter_eq_some_iff.mp he').1, he]
  exact congrArg (fun x => some x.file) hsettled

section
variable {c c' : Cache} (h : c.WellFormed) (h' : c'.WellFormed) (hv : c'.view = c.view)
include h h' hv

theorem file?_of_view {id : FileId} {e : Entry} (he : c.entry? id = some e)
    (hc : e.committed.isSome) : c'.file? id = c.file? id :=
  file_of_settled he hc (by rw [← h.view_entry?, ← h'.view_entry?, hv])

theorem get?_of_view {p : Path} {e : Entry} (he : c.lookup? p = some e)
    (hc : e.committed.isSome) : c'.get? p = c.get? p :=
  file_of_settled he hc (by rw [← h.view_lookup?, ← h'.view_lookup?, hv])

theorem showsCommitted_of_view : c.ShowsCommitted c' where
  toShowsSame := showsSame_of_view h h' hv
  size := congrArg (fun v => v.members.length) hv
  file? _ _ he hc := file?_of_view h h' hv he hc
  get? _ _ he hc := get?_of_view h h' hv he hc
  locate? s _ he hc := by
    unfold locate?
    rw [file?_of_view h h' hv he hc]

end

/-! ## Undoing a reset -/

/-- What a rollback leaves when only staging and marking came after the reset. -/
theorem Sound.rollback_stages {c d : Cache} (h : c.Sound) {contents : Set Text}
    (hd : c.commit.Stages contents d) :
    d.rollback = (true, d.undo c.save) ∧ (d.undo c.save).Sound ∧
      (d.undo c.save).view = c.view := by
  have hsound := hd.sound h.commit
  have hk : d.checkpoint = some c.save := hd.checkpoint h.commit
  refine ⟨hsound.rollback_eq hk, hsound.undo (hsound.checkpoint _ hk), ?_⟩
  calc (d.undo c.save).view
      = (c.commit.undo c.save).view := h.commit.view_undo_eq hsound (hd.view h.commit) rfl hk
    _ = c.view := h.view_undo_commit

/-- A cache that shows the committed part of another and has nothing staged reports the same
changes, once the files that the other has staged are staged again. -/
theorem Sound.changes_restaging {c d : Cache} (h : c.Sound) (hnormal : c.Normal) (hd : d.Sound)
    (hv : d.view = c.view) (hstaged : d.stagedFiles = []) :
    (d.stageCalls (restaging c.stagedFiles)).changes = c.changes := by
  have hpath : ∀ f ∈ c.stagedFiles, f.path.IsNormal := by
    intro f hf
    obtain ⟨e, he, _, rfl⟩ := h.mem_stagedFiles.mp hf
    exact (h.entries e he).next.2.2 ▸ hnormal e he
  have hnodup : (((d.stagedFiles ++ c.stagedFiles).map SourceFile.mention).map Prod.fst).Nodup := by
    rw [hstaged]
    exact h.nodup_mention
  have hmention := hd.mention_restaging (fun _ => h.stagedFiles_made) hpath hnodup
  rw [hstaged] at hmention
  have hstages := d.stageCalls_stages (restaging c.stagedFiles)
  exact h.changes_eq (hstages.sound hd).toWellFormed ((hstages.view hd).trans hv) hmention

/-- A rollback is the inverse of the last reset on what is committed, whatever was staged and
marked since. Nothing is staged after it, a second rollback does nothing, and the reset is the
same once what was staged for it is staged again. -/
theorem rollback_undoes_reset (steps : List CacheStep) (calls : List StagingCall) :
    ∃ undone : Cache,
      ((runSteps steps).reset.2.stageCalls calls).rollback = (true, undone) ∧
      (runSteps steps).ShowsCommitted undone ∧
      undone.stagedFiles = [] ∧ (∀ p, undone.isStaged p = false) ∧
      undone.rollback = (false, undone) ∧
      (undone.stageCalls (restaging (runSteps steps).stagedFiles)).reset.1 =
        (runSteps steps).reset.1 := by
  have h := runSteps_sound steps
  have hstages := (runSteps steps).commit.stageCalls_stages calls
  obtain ⟨hrollback, hundone, hview⟩ := h.rollback_stages hstages
  have hstaged := stagedFiles_undo ((runSteps steps).commit.stageCalls calls) (runSteps steps).save
  refine ⟨_, hrollback, showsCommitted_of_view h.toWellFormed hundone.toWellFormed hview, hstaged,
    fun p => ?_, rollback_of_none rfl,
    h.changes_restaging (runSteps_normal steps) hundone hview hstaged⟩
  rw [← Bool.not_eq_true, hundone.isStaged_iff, hstaged]
  exact List.not_mem_nil

end IncrementalBuild.Cache
