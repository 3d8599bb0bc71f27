import IncrementalBuild.Proofs.FileLists
import IncrementalBuild.Proofs.RepeatedStaging
import IncrementalBuild.Proofs.SessionRuns
/-!
# Discovering what was just committed

A discovery only adds to what is staged. So when the files that a session stages itself are staged
again after a cycle, the discovery that follows goes in step with the one before the cycle: it
searches the same files in the same order, fetches the same, and warns of the same references.
-/
namespace IncrementalBuild

namespace Discovery

variable {loader : Loader} {readFiles : Bool}

/-! ## A discovery only adds -/

theorem follow_adds (loader : Loader) (readFiles : Bool) {d : Discovery} (h : d.cache.Sound)
    (r : Reference) :
    d.cache.upcoming <+: (follow loader readFiles d r).cache.upcoming := by
  unfold follow
  split
  · exact List.prefix_refl _
  · next hstaged =>
    split
    · exact List.prefix_refl _
    · split
      · next content _ =>
        obtain ⟨w, hw⟩ := h.adds (Bool.eq_false_of_not_eq_true hstaged) content
        exact ⟨_, hw.marked.symm⟩
      · exact List.prefix_refl _

theorem follow_all_adds (loader : Loader) (readFiles : Bool) (references : List Reference)
    {d : Discovery} (h : d.cache.Sound) :
    d.cache.upcoming <+: (references.foldl (follow loader readFiles) d).cache.upcoming := by
  induction references generalizing d with
  | nil => exact List.prefix_refl _
  | cons r references ih =>
    exact (follow_adds loader readFiles h r).trans
      (ih ((follow_stages loader.within_univ readFiles d r).sound h))

theorem search_adds (loader : Loader) (readFiles : Bool) {d : Discovery} (h : d.cache.Sound)
    (id : FileId) :
    d.cache.upcoming <+: (search loader readFiles d id).cache.upcoming := by
  unfold search
  split
  · exact List.prefix_refl _
  · exact follow_all_adds loader readFiles _ h

theorem run_adds (loader : Loader) (readFiles : Bool) (bound : Nat) {d : Discovery}
    (h : d.cache.Sound) :
    d.cache.upcoming <+: (run loader readFiles bound d).cache.upcoming := by
  induction bound generalizing d with
  | zero => exact List.prefix_refl _
  | succ bound ih =>
    unfold run
    split
    · exact List.prefix_refl _
    · next id queue _ =>
      exact (search_adds loader readFiles (d := { d with queue }) h id).trans
        (ih ((search_stages loader.within_univ readFiles { d with queue } id).sound h))

theorem stageExternals_adds (loader : Loader) (noExternalResolve : Bool) {c : Cache}
    (h : c.Sound) :
    c.upcoming <+: (stageExternals loader noExternalResolve c).cache.upcoming :=
  run_adds loader (!noExternalResolve) _ (d := ⟨c, c.stagedFiles.map SourceFile.id, .empty, 0⟩) h

/-! ## Two discoveries in step -/

/-- Two discoveries under way on caches in step, with the same files to search and the same
warnings. -/
structure Echoes (base : Cache) (d d' : Discovery) : Prop
    extends Cache.Echoes base d.cache d'.cache where
  queue : d'.queue = d.queue
  log : d'.log = d.log

section
variable {base : Cache} (hbase : base.Sound) {d d' : Discovery} (h : Echoes base d d')
include hbase h

theorem Echoes.follow (r : Reference)
    (hend : (Discovery.follow loader readFiles d r).cache.upcoming <+: base.files) :
    Echoes base (Discovery.follow loader readFiles d r)
      (Discovery.follow loader readFiles d' r) := by
  unfold Discovery.follow at hend ⊢
  rw [h.isStaged r.path]
  split
  · exact h
  · next hstaged =>
    rw [if_neg hstaged] at hend
    split
    · exact ⟨h.toEchoes, h.queue, congrArg (DiagnosticLog.emit · _) h.log⟩
    · next hread =>
      rw [if_neg hread] at hend
      cases hcontent : loader.read r.path with
      | error reason =>
        exact ⟨h.toEchoes, h.queue, congrArg (DiagnosticLog.emit · _) h.log⟩
      | ok content =>
        rw [hcontent] at hend
        obtain ⟨hfetch, hid⟩ :=
          h.fetch hbase (Bool.eq_false_of_not_eq_true hstaged) content hend
        exact ⟨hfetch, congrArg₂ (fun queue id => queue ++ [id]) h.queue hid, h.log⟩

theorem Echoes.follow_all (references : List Reference)
    (hend : (references.foldl (Discovery.follow loader readFiles) d).cache.upcoming <+:
      base.files) :
    Echoes base (references.foldl (Discovery.follow loader readFiles) d)
      (references.foldl (Discovery.follow loader readFiles) d') := by
  induction references generalizing d d' with
  | nil => exact h
  | cons r references ih =>
    -- what the first step stages is still there in the end
    have hsound := (follow_stages loader.within_univ readFiles d r).sound h.sound
    have hnow := (follow_all_adds loader readFiles references hsound).trans hend
    exact ih (h.follow hbase r hnow) hend

theorem Echoes.search (id : FileId)
    (hend : (Discovery.search loader readFiles d id).cache.upcoming <+: base.files) :
    Echoes base (Discovery.search loader readFiles d id)
      (Discovery.search loader readFiles d' id) := by
  have hreferences : (d'.cache.stagedFile? id).map SourceFile.references =
      (d.cache.stagedFile? id).map SourceFile.references := by
    rw [h.sound'.stagedFile?_references, h.sound.stagedFile?_references, h.upcoming]
  unfold Discovery.search at hend ⊢
  cases hf : d.cache.stagedFile? id with
  | none =>
    rw [hf, Option.map_none, Option.map_eq_none_iff] at hreferences
    rw [hreferences]
    exact h
  | some f =>
    rw [hf, Option.map_some, Option.map_eq_some_iff] at hreferences
    obtain ⟨f', hf', hsame⟩ := hreferences
    rw [hf] at hend
    simp only [hf', hsame, h.isStaged]
    exact h.follow_all hbase _ hend

theorem Echoes.run (bound : Nat)
    (hend : (Discovery.run loader readFiles bound d).cache.upcoming <+: base.files) :
    Echoes base (Discovery.run loader readFiles bound d)
      (Discovery.run loader readFiles bound d') := by
  induction bound generalizing d d' with
  | zero => exact h
  | succ bound ih =>
    unfold Discovery.run at hend ⊢
    rw [h.queue]
    cases hqueue : d.queue with
    | nil => exact h
    | cons id queue =>
      rw [hqueue] at hend
      have hnext : Echoes base { d with queue } { d' with queue } := ⟨h.toEchoes, rfl, h.log⟩
      have hsound := (search_stages loader.within_univ readFiles { d with queue } id).sound h.sound
      have hnow := (run_adds loader readFiles bound hsound).trans hend
      exact ih (hnext.search hbase id hnow) hend

end

end Discovery

namespace Cache.Echoes

variable {base c c' : Cache} (hbase : base.Sound) (h : Echoes base c c')
include hbase h

/-- A discovery that ends with the files of the cycle goes the same way again. -/
theorem stageExternals (loader : Loader) (noExternalResolve : Bool)
    (hend : (stageExternals loader noExternalResolve c).cache.upcoming <+: base.files) :
    Discovery.Echoes base (IncrementalBuild.stageExternals loader noExternalResolve c)
      (IncrementalBuild.stageExternals loader noExternalResolve c') := by
  have hids : c'.stagedFiles.map SourceFile.id = c.stagedFiles.map SourceFile.id := by
    rw [← c'.upcoming_map fun _ _ => rfl, ← c.upcoming_map fun _ _ => rfl, h.upcoming]
  have hstart : Discovery.Echoes base ⟨c, c.stagedFiles.map SourceFile.id, .empty, 0⟩
      ⟨c', c.stagedFiles.map SourceFile.id, .empty, 0⟩ := ⟨h, rfl, rfl⟩
  unfold IncrementalBuild.stageExternals at hend ⊢
  rw [hids]
  exact hstart.run hbase _ hend

end Cache.Echoes

/-! ## Staging sources again -/

namespace Cache

/-- Sources under different paths in normal form, none of which is staged. -/
structure Fresh (c : Cache) (sources : List (Path × Text)) : Prop where
  normal : ∀ source ∈ sources, source.1.IsNormal
  nodup : (c.upcoming.map SourceFile.path ++ sources.map Prod.fst).Nodup

section
variable {c : Cache} (h : c.Sound) {p : Path} {content : Text} {rest : List (Path × Text)}
  (hfresh : c.Fresh ((p, content) :: rest))
include h hfresh

theorem Fresh.head : c.isStaged p = false := by
  have hnodup := hfresh.nodup
  rw [List.nodup_append] at hnodup
  rw [← Bool.not_eq_true, h.isStaged_upcoming, hfresh.normal _ List.mem_cons_self]
  exact fun hin => hnodup.2.2 _ hin _ List.mem_cons_self rfl

theorem Fresh.tail : (c.stage p content).2.Fresh rest := by
  obtain ⟨w, hw⟩ := h.adds (hfresh.head h) content
  refine ⟨fun source hs => hfresh.normal source (List.mem_cons_of_mem _ hs), ?_⟩
  have hpath : w.path = p := hw.path.trans (hfresh.normal _ List.mem_cons_self)
  have hnodup := hfresh.nodup
  rw [hw.staged, List.map_append, List.append_assoc, List.map_singleton, hpath]
  exact hnodup

end

theorem stageAll_adds {c : Cache} (h : c.Sound) {sources : List (Path × Text)}
    (hfresh : c.Fresh sources) : c.upcoming <+: (Session.stageAll c sources).upcoming := by
  induction sources generalizing c with
  | nil => exact List.prefix_refl _
  | cons source sources ih =>
    obtain ⟨w, hw⟩ := h.adds (hfresh.head h) source.2
    have hnow : c.upcoming <+: (c.stage source.1 source.2).2.upcoming := ⟨[w], hw.staged.symm⟩
    exact hnow.trans (ih (h.stage source.1 source.2) (hfresh.tail h))

theorem Echoes.stageAll {base c c' : Cache} (hbase : base.Sound) (h : Echoes base c c')
    {sources : List (Path × Text)} (hfresh : c.Fresh sources)
    (hend : (Session.stageAll c sources).upcoming <+: base.files) :
    Echoes base (Session.stageAll c sources) (Session.stageAll c' sources) := by
  induction sources generalizing c c' with
  | nil => exact h
  | cons source sources ih =>
    have hnow := (stageAll_adds (h.sound.stage source.1 source.2) (hfresh.tail h.sound)).trans hend
    exact ih (h.stage hbase (hfresh.head h.sound) source.2 hnow) (hfresh.tail h.sound) hend

end Cache

namespace Session

theorem resolveFiles_paths {workingDirectory base : Path} {files : Option (List Text)}
    {paths : List Path} (h : resolveFiles workingDirectory files base = .ok paths) :
    paths.Nodup ∧ ∀ p ∈ paths, p.IsNormal := by
  unfold resolveFiles at h
  split at h
  · cases h
  · cases h
    refine ⟨nodup_eraseDups _, fun p hp => ?_⟩
    rw [List.mem_eraseDups] at hp
    obtain ⟨f, _, rfl⟩ := List.mem_map.mp hp
    exact Path.resolve_isNormal _ _

variable {σ : Type} {loader : Loader} {s s' : Session σ} {paths : List Path}

theorem resolveSources_ok (h : s.resolveSources loader = .ok paths) :
    paths.Nodup ∧ ∀ p ∈ paths, p.IsNormal := by
  unfold resolveSources at h
  split at h
  · next hfiles =>
    cases h
    exact resolveFiles_paths hfiles
  · cases h

/-- What is loaded are the configured files, with what the loader reads for them. It is the same
for every session with this configuration. -/
theorem loadSources_ok (h : s.loadSources loader = (.ok paths, s')) :
    ∃ sources, s' = { s with cache := stageAll s.cache sources } ∧
      sources.map Prod.fst = paths ∧ paths.Nodup ∧ (∀ p ∈ paths, p.IsNormal) ∧
      ∀ r : Session σ, r.config = s.config →
        r.loadSources loader = (.ok paths, { r with cache := stageAll r.cache sources }) := by
  unfold loadSources at h
  split at h
  · cases h
  · next resolved hresolve =>
    split at h
    · cases h
    · next sources hread =>
      cases h
      obtain ⟨hnodup, hnormal⟩ := resolveSources_ok hresolve
      refine ⟨sources, rfl, (readAll_ok hread).1, hnodup, hnormal, fun r hconfig => ?_⟩
      have hr : r.resolveSources loader = .ok paths := by
        rw [← hresolve]
        unfold resolveSources
        rw [hconfig]
      simp only [loadSources, hr, hread]

end Session

end IncrementalBuild
