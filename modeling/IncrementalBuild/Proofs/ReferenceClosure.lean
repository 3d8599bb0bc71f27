import IncrementalBuild.Proofs.DiscoverySearch
import IncrementalBuild.Proofs.SessionRuns
/-!
# What a session discovers

The files that a session stages itself are its own: whatever marks a file had in earlier cycles,
none is left on a file that is staged. So the files of a cycle that are marked as external are
those that the discovery before it found, and these are the files that the staged ones lead to.
-/
namespace IncrementalBuild

/-! ## Files of the project's own -/

namespace Cache

/-- No staged file is marked as external. -/
def Own (c : Cache) : Prop := ∀ e ∈ c.entries, e.staged = true → e.external = false

section
variable {c : Cache}

theorem own_of_nothing_staged (h : c.WellFormed) (hstaged : c.stagedFiles = []) : c.Own := by
  intro e he hs
  have hin := h.mem_stagedFiles.mpr ⟨e, he, hs, rfl⟩
  rw [hstaged] at hin
  cases hin

theorem Own.stage (hown : c.Own) (h : c.Sound) (p : Path) (content : Text) :
    (c.stage p content).2.Own := by
  obtain ⟨e, _, _, _, heq⟩ | ⟨_, _, heq⟩ := h.stage_cases p content
  · rw [heq]
    intro x hx
    obtain ⟨y, hy, rfl⟩ := List.mem_map.mp hx
    exact Entry.changeAt_of (P := fun y => y.staged = true → y.external = false) (hown y hy)
      (fun _ => Entry.setExternal_external false) e.id
  · rw [heq]
    intro x hx hs
    rcases List.mem_append.mp hx with hx | hx
    · exact hown x hx hs
    · rw [List.mem_singleton.mp hx]
      rfl

theorem Own.stageAll (hown : c.Own) (h : c.Sound) (sources : List (Path × Text)) :
    (Session.stageAll c sources).Own := by
  induction sources generalizing c with
  | nil => exact hown
  | cons source sources ih => exact ih (hown.stage h source.1 source.2) (h.stage source.1 source.2)

theorem Own.prune (hown : c.Own) (h : c.WellFormed) (keep : List Path) :
    (c.prune keep).2.Own := by
  rw [h.prune_eq keep]
  intro x hx hs
  obtain ⟨e, he, rfl⟩ := List.mem_map.mp hx
  exact hown e (List.mem_filter.mp he).1 hs

end

end Cache

theorem Session.Reached.own {σ : Type} {compilers : Set (Compiler σ)} {contents : Set Text}
    {config : BuildConfiguration} {initial : σ} {s : Session σ} {T : List (Path × Text)}
    (h : Reached compilers contents config initial s T) : s.cache.Own := by
  induction h with
  | new => exact Cache.own_of_nothing_staged Cache.empty_sound.toWellFormed rfl
  | addSource h p _ ih => exact ih.stage h.sound p _
  | @loadSources s _ h loader _ ih =>
    rw [loadSources_eq]
    exact ih.stageAll h.sound _
  | prune h ih => exact ih.prune h.sound.toWellFormed _
  | @reset s _ h _ compiler _ loader _ outlets o ih =>
    rcases reset_cases compiler loader outlets s o with ⟨output, o', _, heq⟩ | ⟨e, o', heq⟩
    · rw [heq]
      exact Cache.own_of_nothing_staged (discover_sound loader h.sound).commit.toWellFormed rfl
    · rw [heq]
      exact Cache.own_of_nothing_staged (fails_sound loader h.sound _).toWellFormed
        (fails_staged loader h.sound _)

/-! ## What a discovery finds -/

namespace Discovery

variable {loader : Loader} {c : Cache}

section
variable {d : Discovery} {searched waiting : List SourceFile} {new : List Entry}

theorem Progress.new_sound (h : Progress loader c d searched waiting new) :
    ∀ e ∈ new, e.Sound := by
  intro e he
  have hin := h.appended ▸ List.mem_append_right c.stagedEntries he
  exact h.sound.stagedEntries_sound hin

theorem Progress.fresh (h : Progress loader c d searched waiting new) (hc : c.WellFormed) :
    ∀ e ∈ new, e.path ∉ c.stagedFiles.map SourceFile.path := by
  intro e he hin
  have hnodup := h.nodup_path
  rw [List.map_append] at hnodup
  rw [hc.stagedFiles_path] at hin
  exact (List.nodup_append.mp hnodup).2.2 _ hin _ (List.mem_map_of_mem he) rfl

theorem Progress.external (h : Progress loader c d searched waiting new) (hc : c.WellFormed)
    (hown : c.Own) {f : SourceFile} (hf : f ∈ d.cache.reset.2.files) :
    f.external = true ↔ f.path ∈ (new.map Entry.next).map SourceFile.path := by
  have hcommit : d.cache.reset.2.files = _ := h.sound.files_commit_marked
  rw [hcommit, h.appended] at hf
  obtain ⟨e, he, rfl⟩ := List.mem_map.mp hf
  rcases List.mem_append.mp he with he | he
  · -- a file staged before is not marked, and none that was found has its path
    have hmark : e.external = false := hown e (hc.mem_stagedEntries.mp he).1
      (hc.mem_stagedEntries.mp he).2
    have hold : e.next.path ∈ c.stagedFiles.map SourceFile.path :=
      List.mem_map_of_mem (List.mem_map_of_mem he)
    simp only [hmark, Bool.false_eq_true, false_iff]
    intro hin
    obtain ⟨_, hfound, hpath⟩ := List.mem_map.mp hin
    obtain ⟨x, hx, rfl⟩ := List.mem_map.mp hfound
    refine h.fresh hc x hx ?_
    rw [← (h.new_sound x hx).next.2.2, hpath]
    exact hold
  · have hmark := (h.fetched e he).external
    have hnew : e.next.path ∈ (new.map Entry.next).map SourceFile.path :=
      List.mem_map_of_mem (List.mem_map_of_mem he)
    simp only [hmark, hnew]

end

theorem stageExternals_eq (loader : Loader) (noExternalResolve : Bool) (c : Cache) :
    stageExternals loader noExternalResolve c =
      run loader (!noExternalResolve) (c.stagedFiles.length + loader.files.length) (start c) := by
  unfold stageExternals start
  dsimp only
  rw [List.length_map]

theorem stageExternals_unread (loader : Loader) (c : Cache) :
    ∃ log, stageExternals loader true c = ⟨c, [], log, 0⟩ := by
  obtain ⟨log, hrun⟩ :=
    run_unread loader (c.stagedFiles.length + loader.files.length) (start c)
  have hqueue : (start c).queue.drop (c.stagedFiles.length + loader.files.length) = [] := by
    apply List.drop_eq_nil_of_le
    simp [start]
  rw [hqueue] at hrun
  exact ⟨log, (stageExternals_eq loader true c).trans hrun⟩

end Discovery

namespace Session

/-- One cycle is complete, and the content that is staged since refers to a library. -/
def linked : Session Memo :=
  let config := BuildConfiguration.of "/p/project.json" .empty .initial
  let first := ((Session.new config Memo.empty).addSource "/p/a.ts" "let a = 1;".toList).2
  let cycled := (first.reset PassThrough.compiler .empty (.pair Shelf.outlet Shelf.outlet)
    (.empty, .empty)).2.1
  (cycled.addSource "/p/a.ts" "/// <reference path=\"lib/b.ts\" />".toList).2

/-- Two files that refer to each other, one of them under a second spelling. -/
def library : Loader :=
  (Loader.empty.insert "/p/lib/b.ts" "/// <reference path=\"c.ts\" />".toList).insert
    "/p/lib/c.ts" "/// <reference path=\"./../lib/b.ts\" />".toList

theorem linked_reached : Reached PassThrough.compilers Set.univ linked.config Memo.empty linked
    [("/p/a.ts", "/// <reference path=\"lib/b.ts\" />".toList)] :=
  ((Reached.new.addSource "/p/a.ts" (Set.mem_univ _)).reset PassThrough.compiler_mem
    (Loader.within_univ _) _ _).addSource "/p/a.ts" (Set.mem_univ _)

end Session

end IncrementalBuild
