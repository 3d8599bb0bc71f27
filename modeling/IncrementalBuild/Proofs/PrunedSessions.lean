import IncrementalBuild.Proofs.CleanBuild
import IncrementalBuild.Proofs.ForgottenFiles
import IncrementalBuild.Proofs.Rebuild
/-!
# What a prune leaves staged

A session prunes to the files of its committed cycle, while its cache may hold files that are
staged for the next one. The staged files that the cycle has are kept as they are. The others are
forgotten, whether an earlier cycle had them or not, so what was staged for them is lost. If there
are none of these, the next cycle has the files that it would have had without the prune.
-/
namespace IncrementalBuild

/-- The paths of the files of a cycle are those that the cycle has. -/
theorem Cache.WellFormed.among_files {c : Cache} (h : c.WellFormed) (hnormal : c.Normal) {p : Path}
    (hp : p.IsNormal) : p.among (c.files.map SourceFile.path) = c.contains p := by
  have hpaths : ∀ q ∈ c.files.map SourceFile.path, q.IsNormal := by
    intro q hq
    obtain ⟨f, hf, rfl⟩ := List.mem_map.mp hq
    exact h.files_normal hnormal hf
  rw [Bool.eq_iff_iff, hp.among_iff hpaths]
  constructor
  · intro hin
    obtain ⟨f, hf, rfl⟩ := List.mem_map.mp hin
    exact h.contains_of_mem_files hnormal hf
  · intro hin
    obtain ⟨e, hl, hcycle⟩ := (Option.any_eq_true ..).mp hin
    obtain ⟨he, hpath⟩ := h.lookup?_eq_some_iff.mp hl
    exact List.mem_map.mpr ⟨e.file, h.mem_files.mpr ⟨e, he, hcycle, rfl⟩, hpath.trans hp⟩

namespace Session

variable {σ : Type} {compilers : Set (Compiler σ)} {contents : Set Text}
  {config : BuildConfiguration} {initial : σ} {s : Session σ} {T : List (Path × Text)}

/-- What a prune of the session `s` leaves in the session `s'`: the cycle, and of the staged files
those that the cycle has. The next cycle begins with these, whatever is discovered besides. Of any
other staged file nothing is left. -/
structure KeepsMembers (s s' : Session σ) : Prop where
  committed : s'.cache.files = s.cache.files
  staged : s'.cache.stagedFiles = s.cache.stagedFiles.filter fun f => s.cache.contains f.path
  upcoming : ∀ loader : Loader,
    (s'.cache.stagedFiles.map fun f => (f.id, f.path, f.content)) <+:
      (s'.discover loader).cache.commit.files.map fun f => (f.id, f.path, f.content)
  dropped : ∀ f ∈ s.cache.stagedFiles, s.cache.contains f.path = false →
    s'.cache.get? f.path = none ∧ s'.cache.isStaged f.path = false

theorem staged_upcoming (h : s.cache.Sound) (loader : Loader) {α : Type} {g : SourceFile → α}
    (hg : SourceFile.Unmarked g) :
    s.cache.stagedFiles.map g <+: (s.discover loader).cache.commit.files.map g := by
  rw [← s.cache.upcoming_map hg, (discover_sound loader h).files_commit_eq]
  exact (Discovery.stageExternals_adds loader _ h).map g

section
variable (h : Reached compilers contents config initial s T)
include h

theorem Reached.staged_normal {f : SourceFile} (hf : f ∈ s.cache.stagedFiles) :
    f.path.IsNormal := by
  obtain ⟨e, he, _, rfl⟩ := h.sound.mem_stagedFiles.mp hf
  exact (h.sound.entries e he).next.2.2 ▸ h.normal e he

/-- A prune keeps the staged files that the cycle has. -/
theorem Reached.keepsMembers : s.KeepsMembers s.prune.2 where
  committed := prune_files h.sound
  staged := by
    show (s.cache.prune _).2.stagedFiles = _
    rw [h.sound.stagedFiles_prune]
    exact List.filter_congr fun f hf => h.sound.among_files h.normal (h.staged_normal hf)
  upcoming loader := staged_upcoming (h.sound.prune _) loader fun _ _ => rfl
  dropped f hf hno := by
    have hnormal := h.staged_normal hf
    have hunknown : f.path.normalize.among (s.cache.files.map SourceFile.path) = false := by
      rw [hnormal, h.sound.among_files h.normal hnormal, hno]
    obtain ⟨hget, _, _, hstaged, _⟩ := (h.sound.forgets _).unknown f.path hunknown
    exact ⟨hget, hstaged⟩

/-- A prune that keeps what is staged keeps the files of the next cycle. -/
theorem Reached.builds_same (hstaged : s.prune.2.cache.stagedFiles = s.cache.stagedFiles)
    (hinj : Set.InjOn ContentHash.ofText contents) {loader : Loader}
    (hloader : loader.Within contents) :
    ((s.prune.2.discover loader).cache.commit.files.map fun f => (f.path, f.content)) =
      (s.discover loader).cache.commit.files.map fun f => (f.path, f.content) := by
  have htwins : s.cache.Twins contents s.prune.2.cache := by
    refine ⟨h.sound, h.sound.prune _, h.within, h.within.prune h.sound.toWellFormed _, ?_⟩
    exact congrArg (List.map fun f => (f.path, f.content)) hstaged
  have hmatch := (discover_sound loader h.sound).match_partner
    (discover_sound loader (s := s.prune.2) (h.sound.prune _))
  have hcycle := (htwins.stageExternals hinj hloader _ hmatch).toTwins.commit hmatch
  exact hcycle.map_files (g := fun f => (f.path, f.content)) fun _ => rfl

/-- A prune keeps the staged files that the cycle has, each with its content and all in their
order, and forgets the others. If the cycle has all of them, then nothing that is staged is lost,
and the next cycle has the same files as without the prune, as long as no two contents of the
session have the same hash. -/
theorem prune_keeps_members : s.KeepsMembers s.prune.2 ∧
    ((∀ f ∈ s.cache.stagedFiles, s.cache.contains f.path = true) →
      s.prune.2.cache.stagedFiles = s.cache.stagedFiles ∧
      (Set.InjOn ContentHash.ofText contents → ∀ loader : Loader, loader.Within contents →
        ((s.prune.2.discover loader).cache.commit.files.map fun f => (f.path, f.content)) =
          (s.discover loader).cache.commit.files.map fun f => (f.path, f.content))) := by
  refine ⟨h.keepsMembers, fun hmembers => ?_⟩
  have hstaged : s.prune.2.cache.stagedFiles = s.cache.stagedFiles := by
    rw [h.keepsMembers.staged, List.filter_eq_self]
    exact hmembers
  exact ⟨hstaged, fun hinj loader hloader => h.builds_same hstaged hinj hloader⟩

end

/-- The small session has staged another content of the file of its cycle, and a prune keeps it. -/
theorem sample_prune_keeps_members :
    sample.cache.stagedFiles.map (fun f => (f.path, f.content)) = sampleSources ∧
    sample.prune.2.cache.stagedFiles = sample.cache.stagedFiles ∧
    ((sample.prune.2.discover .empty).cache.commit.files.map fun f => (f.path, f.content)) =
      (sample.discover .empty).cache.commit.files.map fun f => (f.path, f.content) := by
  have hmembers : ∀ f ∈ sample.cache.stagedFiles, sample.cache.contains f.path = true := by
    decide +kernel
  obtain ⟨_, hkeeps⟩ := prune_keeps_members sample_reached
  obtain ⟨hstaged, hbuilds⟩ := hkeeps hmembers
  exact ⟨by decide +kernel, hstaged,
    hbuilds sampleContents_injOn .empty (Loader.empty_within sampleContents)⟩

/-- The small session with a file staged that its cycle does not have. -/
def grownSample : Session Memo := (sample.addSource "/p/b.ts" "let a = 1;".toList).2

theorem prune_drops_new_file :
    Reached PassThrough.compilers sampleContents sample.config Memo.empty grownSample
      (sampleSources ++ [(("/p/b.ts" : Path), "let a = 1;".toList)]) ∧
    grownSample.cache.stagedFiles.map SourceFile.path = [("/p/a.ts" : Path), "/p/b.ts"] ∧
    grownSample.prune.2.cache.stagedFiles.map SourceFile.path = [("/p/a.ts" : Path)] ∧
    (grownSample.discover .empty).cache.commit.files.map SourceFile.path =
      [("/p/a.ts" : Path), "/p/b.ts"] ∧
    (grownSample.prune.2.discover .empty).cache.commit.files.map SourceFile.path =
      [("/p/a.ts" : Path)] := by
  refine ⟨sample_reached.addSource "/p/b.ts" (Or.inl rfl), ?_⟩
  decide +kernel

end Session

end IncrementalBuild
