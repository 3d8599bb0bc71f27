import IncrementalBuild.Proofs.ContentVersions
import IncrementalBuild.Proofs.EqualHashes
import IncrementalBuild.Proofs.Lifecycle
import IncrementalBuild.Proofs.ReferenceClosure
import IncrementalBuild.Proofs.RepeatedDiscovery
import IncrementalBuild.Proofs.UndoneReset
/-!
# Loaded sources

A session reads every file of its list before it stages the first one. A file that cannot be read
leaves the session as it was, wherever it stands in the list. If all can be read, they are staged
one after the other, each under a path of its own: what one of them becomes depends on what the
cache had at its path before, and the others do not touch it.
-/
namespace IncrementalBuild

/-! ## One more staged file -/

/-- A file is marked as external after it was staged only if it is the committed one. -/
theorem Entry.restage_next_external {e : Entry} {content : Text}
    (h : (e.restage content).next.external = true) :
    e.committed.isSome ∧ (e.restage content).next = e.file := by
  have hkeeps := Entry.stage_keeps content e
  have hnext : (e.restage content).next = ((e.stage content).setExternal false).next := rfl
  rw [hnext] at h ⊢
  unfold Entry.setExternal Entry.next at h ⊢
  cases hp : (e.stage content).pending with
  | some f => simp [hp] at h
  | none =>
    cases hc : e.committed with
    | none => simp [hp, hkeeps.committed, hc] at h
    | some hash =>
      have hfile := hkeeps.file (by simp [hc])
      simp [hkeeps.committed, hc, hfile]

namespace Cache

/-- The content that a path gets when a content is staged for it. A content with the hash of the
latest one counts as the same, and the latest one stays. -/
def taken (c : Cache) (p : Path) (content : Text) : Text :=
  match c.latest? p with
  | some f => if ContentHash.ofText content = f.hash then f.content else content
  | none => content

/-- The cache `c'` has a content staged at a path, over what the cache `c` has there: as a file of
the project's own, or as the committed file of the path with the mark that it has. -/
def Takes (c c' : Cache) (p : Path) (content : Text) : Prop :=
  ∃ f ∈ c'.stagedFiles, f.path = p ∧ f.hash = ContentHash.ofText content ∧
    f.content = c.taken p content ∧
    (f.external = true → ∃ e, c.lookup? p = some e ∧ e.committed.isSome ∧ e.file = f)

section
variable {c : Cache} (h : c.Sound) {p : Path} (content : Text)
include h

theorem Sound.stage_takes (hp : p.IsNormal) : c.Takes (c.stage p content).2 p content := by
  obtain ⟨e, he, hpath, _, heq⟩ | ⟨hno, _, heq⟩ := h.stage_cases p content
  · have hsound := h.entries e he
    have hl : c.lookup? p = some e := h.lookup?_eq_some_iff.mpr ⟨he, hpath⟩
    have hlatest : c.latest? p = some e.next := by rw [h.latest?_eq, hl, Option.map_some]
    refine ⟨(e.restage content).next, ?_, ?_, hsound.restage_next_hash content, ?_, fun hext => ?_⟩
    · rw [heq, (h.restageAt he content).mem_stagedFiles]
      exact ⟨e.restage content, List.mem_map.mpr ⟨e, he, Entry.changeAt_self _ e⟩, rfl, rfl⟩
    · rw [(hsound.restage content).next.2.2, (Entry.restage_keeps content e).path, hpath, hp]
    · rw [hsound.restage_content, taken, hlatest]
    · obtain ⟨hcommitted, hfile⟩ := Entry.restage_next_external hext
      exact ⟨e, hl, hcommitted, hfile.symm⟩
  · have hlatest : c.latest? p = none := by
      rw [h.latest?_eq, Option.map_eq_none_iff]
      exact find?_key_eq_none_iff.mpr hno
    refine ⟨(c.newEntry p.normalize content).file, ?_, hp, rfl, ?_, fun hext => absurd hext ?_⟩
    · rw [heq, h.stagedFiles_stageNew content]
      exact List.mem_append_right _ (List.mem_singleton_self _)
    · rw [taken, hlatest]
      rfl
    · exact Bool.false_ne_true

/-- Staging a content for a path leaves the files that are staged at other paths. -/
theorem Sound.mem_stagedFiles_stage {f : SourceFile} (hf : f ∈ c.stagedFiles)
    (hne : f.path ≠ p.normalize) : f ∈ (c.stage p content).2.stagedFiles := by
  obtain ⟨g, _, _, _, _, hput⟩ := h.stagedFiles_stage p content
  have hin : (f.path, f) ∈ put (c.stagedFiles.map fun f => (f.path, id f)) p.normalize (id g) :=
    mem_put_of_ne (List.mem_map.mpr ⟨f, hf, rfl⟩) hne g
  rw [← hput id] at hin
  obtain ⟨x, hx, heq⟩ := List.mem_map.mp hin
  obtain rfl : x = f := congrArg Prod.snd heq
  exact hx

/-- Staging a content for a path that is not staged puts the path after all others. -/
theorem Sound.stagedFiles_path_stage (hp : p.IsNormal) :
    (c.stage p content).2.stagedFiles.map SourceFile.path =
      c.stagedFiles.map SourceFile.path ++ [p].filter fun q => !c.isStaged q := by
  obtain ⟨_, _, _, _, _, hput⟩ := h.stagedFiles_stage p content
  have hkeys := congrArg (List.map Prod.fst) (hput id)
  rw [map_fst_put, List.map_map, List.map_map, hp] at hkeys
  have hiff := h.isStaged_iff (p := p)
  rw [hp] at hiff
  refine hkeys.trans ?_
  show (if p ∈ c.stagedFiles.map SourceFile.path then c.stagedFiles.map SourceFile.path
    else c.stagedFiles.map SourceFile.path ++ [p]) = _
  cases hs : c.isStaged p with
  | true => simp [hs, hiff.mp hs]
  | false => simp [hs, mt hiff.mpr (by simp [hs])]

end

/-! ## Many sources -/

/-- Staging a content for the first of several paths changes nothing of what is found under the
others. -/
theorem Sound.lookup?_stage_first {c : Cache} (h : c.Sound) {first : Path} {paths : List Path}
    (hnodup : (first :: paths).Nodup) (hnormal : ∀ p ∈ first :: paths, p.IsNormal)
    (content : Text) {p : Path} (hp : p ∈ paths) :
    (c.stage first content).2.lookup? p = c.lookup? p := by
  obtain ⟨hhead, hrest⟩ := List.forall_mem_cons.mp hnormal
  have hne : p.normalize ≠ first.normalize := by
    rw [hrest p hp, hhead]
    exact fun heq => (List.nodup_cons.mp hnodup).1 (heq ▸ hp)
  rw [h.lookup?_stage, if_neg hne]

section
variable {c : Cache} (h : c.Sound) {sources : List (Path × Text)}
  (hnodup : (sources.map Prod.fst).Nodup) (hnormal : ∀ p ∈ sources.map Prod.fst, p.IsNormal)
include h hnormal

theorem Sound.mem_stagedFiles_stageAll {f : SourceFile} (hf : f ∈ c.stagedFiles)
    (hne : f.path ∉ sources.map Prod.fst) : f ∈ (Session.stageAll c sources).stagedFiles := by
  induction sources generalizing c with
  | nil => exact hf
  | cons source sources ih =>
    obtain ⟨hhead, hrest⟩ := List.forall_mem_cons.mp hnormal
    obtain ⟨hne, hothers⟩ := not_or.mp (mt List.mem_cons.mpr hne)
    refine ih (h.stage source.1 source.2) hrest (h.mem_stagedFiles_stage source.2 hf ?_) hothers
    rwa [hhead]

include hnodup

theorem Sound.stageAll_takes : ∀ source ∈ sources,
    c.Takes (Session.stageAll c sources) source.1 source.2 := by
  induction sources generalizing c with
  | nil => exact fun _ hs => absurd hs List.not_mem_nil
  | cons first sources ih =>
    obtain ⟨hhead, hrest⟩ := List.forall_mem_cons.mp hnormal
    obtain ⟨hother, hdistinct⟩ := List.nodup_cons.mp hnodup
    have hs := h.stage first.1 first.2
    intro source hin
    rcases List.mem_cons.mp hin with rfl | hin
    · obtain ⟨f, hf, hpath, htaken⟩ := h.stage_takes source.2 hhead
      exact ⟨f, hs.mem_stagedFiles_stageAll hrest hf (hpath ▸ hother), hpath, htaken⟩
    · obtain ⟨f, hf, hpath, hash, hcontent, hmark⟩ := ih hs hdistinct hrest source hin
      have hlookup := h.lookup?_stage_first hnodup hnormal first.2 (List.mem_map_of_mem hin)
      refine ⟨f, hf, hpath, hash, ?_, hlookup ▸ hmark⟩
      rw [hcontent, taken, hs.latest?_eq, hlookup, ← h.latest?_eq, taken]

theorem Sound.stagedFiles_path_stageAll :
    (Session.stageAll c sources).stagedFiles.map SourceFile.path =
      c.stagedFiles.map SourceFile.path ++
        (sources.map Prod.fst).filter fun p => !c.isStaged p := by
  induction sources generalizing c with
  | nil => simp [Session.stageAll]
  | cons first sources ih =>
    obtain ⟨hhead, hrest⟩ := List.forall_mem_cons.mp hnormal
    have hdistinct := (List.nodup_cons.mp hnodup).2
    have hs := h.stage first.1 first.2
    have hsame : (sources.map Prod.fst).filter (fun p => !(c.stage first.1 first.2).2.isStaged p) =
        (sources.map Prod.fst).filter fun p => !c.isStaged p := by
      refine List.filter_congr fun p hp => ?_
      rw [isStaged, h.lookup?_stage_first hnodup hnormal first.2 hp, isStaged]
    calc (Session.stageAll (c.stage first.1 first.2).2 sources).stagedFiles.map SourceFile.path
        = c.stagedFiles.map SourceFile.path ++ ([first.1].filter fun p => !c.isStaged p) ++
            (sources.map Prod.fst).filter fun p => !c.isStaged p := by
          rw [ih hs hdistinct hrest, hsame, h.stagedFiles_path_stage first.2 hhead]
      _ = _ := by rw [List.append_assoc, ← List.filter_append]; rfl

end

end Cache

/-! ## Loading the configured files -/

namespace Session

variable {σ : Type}

/-- A path that cannot be read is reported if all before it can be read. -/
theorem readAll_error {loader : Loader} {paths : List Path} {e : SessionError}
    (h : readAll loader paths = .error e) : ∃ before p after reason,
      paths = before ++ p :: after ∧ (∀ q ∈ before, loader.Reads q) ∧
      loader.read p = .error reason ∧ e = .missingSource p reason := by
  induction paths with
  | nil => cases h
  | cons p rest ih =>
    unfold readAll at h
    split at h
    · next reason hread =>
      cases h
      exact ⟨[], p, rest, reason, rfl, fun _ hq => absurd hq List.not_mem_nil, hread, rfl⟩
    · next content hread =>
      split at h
      · next e hmore =>
        cases h
        obtain ⟨before, q, after, reason, rfl, hreads, hfails, he⟩ := ih hmore
        exact ⟨p :: before, q, after, reason, rfl,
          List.forall_mem_cons.mpr ⟨⟨content, hread⟩, hreads⟩, hfails, he⟩
      · cases h

/-- Why a session cannot load its files. -/
inductive LoadFault (loader : Loader) (s : Session σ) : SessionError → Prop
  | noList (none : s.config.project.files = none) :
    LoadFault loader s (.configuration (.ofResolve .missingFileList))
  | unreadable {before after : List Path} {p : Path} {reason : Text}
    (listed : s.resolveSources loader = .ok (before ++ p :: after))
    (readable : ∀ q ∈ before, loader.Reads q) (fails : loader.read p = .error reason) :
    LoadFault loader s (.missingSource p reason)

/-- What comes of loading the files under some paths: the session `s'` after the session `s`. What
was staged stays in its place, and what was not comes after it, in the order of the paths.
Whatever a reset discovers then, it commits the loaded files as the project's own. -/
structure Loads (loader : Loader) (s : Session σ) (paths : List Path) (s' : Session σ) : Prop where
  resolved : s.resolveSources loader = .ok paths
  rest : s' = { s with cache := s'.cache }
  committed : s.cache.ShowsCommitted s'.cache
  ordered : s'.cache.stagedFiles.map SourceFile.path =
    s.cache.stagedFiles.map SourceFile.path ++ paths.filter fun p => !s.cache.isStaged p
  staged : ∀ p ∈ paths, ∃ content, loader.read p = .ok content ∧
    s.cache.Takes s'.cache p content
  kept : ∀ f ∈ s.cache.stagedFiles, f.path ∉ paths → f ∈ s'.cache.stagedFiles
  own : ∀ later : Loader, ∀ f ∈ (s'.discover later).cache.commit.files, f.path ∈ paths →
    f.external = false

theorem resolveSources_error {loader : Loader} {s : Session σ} {e : SessionError}
    (h : s.resolveSources loader = .error e) : LoadFault loader s e := by
  unfold resolveSources resolveFiles at h
  cases hfiles : s.config.project.files with
  | none =>
    rw [hfiles] at h
    cases h
    exact .noList hfiles
  | some files =>
    rw [hfiles] at h
    cases h

/-- A file that was staged before the discovery is committed as the project's own. -/
theorem own_of_staged {s : Session σ} (h : s.cache.Sound) (hown : s.cache.Own) (loader : Loader)
    {f : SourceFile} (hf : f ∈ (s.discover loader).cache.commit.files)
    (hstaged : f.path ∈ s.cache.stagedFiles.map SourceFile.path) : f.external = false := by
  have hd := (discover_sound loader h).commit
  obtain ⟨found, happend⟩ : s.cache.upcoming <+: (s.discover loader).cache.upcoming :=
    Discovery.stageExternals_adds loader _ h
  have hnodup := hd.nodup_files_path
  rw [(discover_sound loader h).files_commit_eq, ← happend] at hf hnodup
  rw [← s.cache.upcoming_map fun _ _ => rfl] at hstaged
  rcases List.mem_append.mp hf with hf | hf
  · obtain ⟨e, he, rfl⟩ := List.mem_map.mp hf
    obtain ⟨hin, hs⟩ := h.mem_stagedEntries.mp he
    exact hown e hin hs
  · -- the path of a file that was found is not staged yet
    rw [List.map_append] at hnodup
    exact absurd rfl ((List.nodup_append.mp hnodup).2.2 _ hstaged _ (List.mem_map_of_mem hf))

section
variable {s : Session σ} (h : s.cache.Sound) (hown : s.cache.Own)
include h hown

theorem loads_of_readable {loader : Loader} {paths : List Path} {sources : List (Path × Text)}
    (hresolved : s.resolveSources loader = .ok paths)
    (hread : readAll loader paths = .ok sources) :
    Loads loader s paths { s with cache := stageAll s.cache sources } := by
  obtain ⟨hnodup, hnormal⟩ := resolveSources_ok hresolved
  obtain ⟨rfl, hreads⟩ := readAll_ok hread
  have hstages : s.cache.Stages Set.univ (stageAll s.cache sources) :=
    stageAll_stages (fun _ _ => Set.mem_univ _) s.cache
  have hsound := hstages.sound h
  have htakes := h.stageAll_takes hnodup hnormal
  refine ⟨hresolved, rfl, ?_, h.stagedFiles_path_stageAll hnodup hnormal, fun p hp => ?_,
    fun f hf hne => h.mem_stagedFiles_stageAll hnormal hf hne, fun later f hf hp => ?_⟩
  · exact Cache.showsCommitted_of_view h.toWellFormed hsound.toWellFormed (hstages.view h)
  · obtain ⟨source, hs, rfl⟩ := List.mem_map.mp hp
    exact ⟨source.2, hreads source hs, htakes source hs⟩
  · obtain ⟨source, hs, hpath⟩ := List.mem_map.mp hp
    obtain ⟨g, hg, hgpath, _⟩ := htakes source hs
    refine own_of_staged hsound (hown.stageAll h sources) later hf ?_
    exact List.mem_map.mpr ⟨g, hg, hgpath.trans hpath⟩

/-- A session loads all of its files, or it stays as it is. -/
theorem loads_or_stays (loader : Loader) :
    (∃ e, s.loadSources loader = (.error e, s) ∧ LoadFault loader s e) ∨
      ∃ paths s', s.loadSources loader = (.ok paths, s') ∧ Loads loader s paths s' := by
  cases hresolved : s.resolveSources loader with
  | error e =>
    refine Or.inl ⟨e, ?_, resolveSources_error hresolved⟩
    simp only [loadSources, hresolved]
  | ok paths =>
    cases hread : readAll loader paths with
    | error e =>
      refine Or.inl ⟨e, by simp only [loadSources, hresolved, hread], ?_⟩
      obtain ⟨_, _, _, _, rfl, hreadable, hfails, rfl⟩ := readAll_error hread
      exact .unreadable hresolved hreadable hfails
    | ok sources =>
      refine Or.inr ⟨paths, _, ?_, loads_of_readable h hown hresolved hread⟩
      simp only [loadSources, hresolved, hread]

end

/-- In every session that a run of operations leads to, loading the configured files is all or
nothing. If there is no list or a file of it cannot be read, the first such file is named and the
session stays as it is. Otherwise every file of the list is staged, with the content that the
loader has for it unless the latest content of the path has the same hash, and not as an external
one unless it is the committed file as it stands; the files that were not staged before come last,
in the order of the list, and what is committed looks the same. -/
theorem loadSources_all_or_nothing (config : BuildConfiguration) (initial : σ)
    (steps : List (SessionStep σ)) (loader : Loader) :
    let s := runSteps config initial steps
    (∃ e, s.loadSources loader = (.error e, s) ∧ LoadFault loader s e) ∨
      ∃ paths s', s.loadSources loader = (.ok paths, s') ∧ Loads loader s paths s' := by
  intro s
  obtain ⟨_, hreached⟩ := runSteps_reached config initial steps
  exact loads_or_stays hreached.sound hreached.own loader

/-! ### What is loaded but not taken -/

/-- A project that lists one file. -/
def listing : BuildConfiguration :=
  .of "/p/project.json" { ProjectConfig.empty with files := some ["a.ts".toList] } .initial

/-- A loader that has this file. -/
def listed (content : Text) : Loader := Loader.empty.insert "/p/a.ts" content

/-- One cycle is complete, in which the file was an external one. -/
def adopting : Session Memo :=
  runSteps listing Memo.empty [.addSource "/p/b.ts" "/// <reference path=\"a.ts\" />".toList,
    .reset PassThrough.compiler (listed "let a;".toList) (.pair Shelf.outlet Shelf.outlet)
      (.empty, .empty)]

/-- The file is staged with another content that has the same hash. -/
def merging : Session Memo :=
  runSteps listing Memo.empty [.addSource "/p/a.ts" Text.conflicted]

theorem taken_merging : merging.cache.taken "/p/a.ts" Text.resolved = Text.conflicted := by
  have hsound : merging.cache.Sound := Cache.empty_sound.stage "/p/a.ts" Text.conflicted
  have hlookup : merging.cache.lookup? "/p/a.ts" =
      some (Cache.empty.restaged "/p/a.ts" Text.conflicted) :=
    (Cache.empty_sound.lookup?_stage "/p/a.ts" Text.conflicted "/p/a.ts").trans (if_pos rfl)
  rw [Cache.taken, hsound.latest?_eq, hlookup]
  exact if_pos ContentHash.ofText_resolved

/-- A file that is loaded as the last cycle had it keeps the mark of this cycle until the next one,
and a content with the hash of the one that is staged is not staged. -/
theorem loadSources_keeps_latest :
    (∃ s', adopting.loadSources (listed "let a;".toList) = (.ok [("/p/a.ts" : Path)], s') ∧
      s'.cache.stagedFiles.map (fun f => (f.path, f.content, f.external)) =
        [(("/p/a.ts" : Path), "let a;".toList, true)]) ∧
    ∃ s', merging.loadSources (listed Text.resolved) = (.ok [("/p/a.ts" : Path)], s') ∧
      (listed Text.resolved).read "/p/a.ts" = .ok Text.resolved ∧
      s'.cache.stagedFiles.map SourceFile.path = [("/p/a.ts" : Path)] ∧
      (∃ f ∈ s'.cache.stagedFiles, f.path = "/p/a.ts" ∧ f.content = Text.conflicted) ∧
      Text.conflicted ≠ Text.resolved := by
  have hadopted : (adopting.loadSources (listed "let a;".toList)).1 = .ok [("/p/a.ts" : Path)] := by
    decide +kernel
  have hmerged : (merging.loadSources (listed Text.resolved)).1 = .ok [("/p/a.ts" : Path)] := by
    decide +kernel
  have hread : (listed Text.resolved).read "/p/a.ts" = .ok Text.resolved := by decide +kernel
  refine ⟨⟨_, Prod.ext hadopted rfl, by decide +kernel⟩, ?_⟩
  obtain ⟨_, hreached⟩ := runSteps_reached listing Memo.empty
    [.addSource "/p/a.ts" Text.conflicted]
  obtain ⟨_, hfails, _⟩ | ⟨paths, s', hloads, h⟩ :=
    loads_or_stays hreached.sound hreached.own (listed Text.resolved)
  · cases (congrArg Prod.fst hfails).symm.trans hmerged
  · cases (congrArg Prod.fst hloads).symm.trans hmerged
    obtain ⟨content, hcontent, f, hf, hpath, _, htaken, _⟩ :=
      h.staged "/p/a.ts" (List.mem_singleton_self _)
    cases hcontent.symm.trans hread
    refine ⟨s', hloads, hread, ?_, ⟨f, hf, hpath, htaken.trans taken_merging⟩, by decide +kernel⟩
    exact h.ordered.trans (by decide +kernel)

end Session

end IncrementalBuild
