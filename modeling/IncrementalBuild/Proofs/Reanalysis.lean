import IncrementalBuild.Proofs.ChangeDetectors
import IncrementalBuild.Proofs.PrunedSessions
import IncrementalBuild.Proofs.ShownVersions
import IncrementalBuild.Proofs.StreamEnds
/-!
# What the compiler looks at again

In a cycle the compiler looks at the files that its memory does not serve. These are files of the
cycle, in their order, and all the changed ones are among them, whatever the memory holds. As long
as no cycle failed, the memory serves every file of the last cycle, so only the changed files are
looked at. A cycle that failed leaves analyses of files that were taken back, so later cycles may
have to look at more.
-/
namespace IncrementalBuild

namespace PassThrough

/-! ## Which files the memory serves -/

/-- Whether the memory has an analysis that is used for a file in place of another look at it. -/
def serves (changes : ChangeSet) (declaration : Bool) (m : Memo) (f : SourceFile) : Bool :=
  !changes.contains f.path && (m.get? f.path).any (fits · f declaration)

section
variable (changes : ChangeSet) (declaration : Bool) (m : Memo)

theorem consult_analyzed (f : SourceFile) : (consult changes declaration m f).2.analyzed =
    if serves changes declaration m f then m.analyzed else m.analyzed ++ [f.path] := by
  unfold consult serves
  cases changes.contains f.path with
  | true => rfl
  | false =>
    cases hget : m.get? f.path with
    | none => rfl
    | some a => cases hfits : fits a f declaration <;> simp [Option.filter, hfits, Memo.learn]

/-- Looking at one file changes nothing of what the memory has for another. -/
theorem serves_consult {f g : SourceFile} (hne : g.path ≠ f.path) :
    serves changes declaration (consult changes declaration m f).2 g =
      serves changes declaration m g := by
  unfold serves
  rw [consult_get?_of_ne changes declaration m hne]

/-- The compiler looks at the files that the memory does not serve, in their order. -/
theorem consultAll_analyzed {files : List SourceFile}
    (hpaths : (files.map SourceFile.path).Nodup) :
    (consultAll changes declaration m files).2.analyzed =
      m.analyzed ++ (files.filter fun f => !serves changes declaration m f).map
        SourceFile.path := by
  induction files generalizing m with
  | nil => exact (List.append_nil _).symm
  | cons f rest ih =>
    rw [List.map_cons, List.nodup_cons] at hpaths
    have hrest : (rest.filter fun g =>
          !serves changes declaration (consult changes declaration m f).2 g) =
        rest.filter fun g => !serves changes declaration m g := by
      apply List.filter_congr
      intro g hg
      have hne : g.path ≠ f.path := fun heq => hpaths.1 (heq ▸ List.mem_map_of_mem hg)
      rw [serves_consult changes declaration m hne]
    show (consultAll changes declaration (consult changes declaration m f).2 rest).2.analyzed = _
    rw [ih _ hpaths.2, hrest, consult_analyzed, List.filter_cons]
    cases serves changes declaration m f <;> simp

end

theorem compile_analyzed {config : BuildConfiguration} {sources : Cache} (changes : ChangeSet)
    (m : Memo) (htarget : Compile.targetFault? config.options.target = none)
    (hpaths : (sources.files.map SourceFile.path).Nodup) :
    (compile config sources changes m).2.analyzed =
      (sources.files.filter fun f => !serves changes config.options.declaration m f).map
        SourceFile.path := by
  rw [compile_accepted htarget]
  exact consultAll_analyzed changes config.options.declaration { m with analyzed := [] } hpaths

end PassThrough

namespace Cache

/-! ## What has changed in a cycle -/

section
variable {c : Cache} (h : c.Sound)
include h

/-- The paths that a reset commits are those that its changes account for. -/
theorem Sound.committed_paths {p : Path} : p ∈ c.commit.files.map SourceFile.path ↔
    p ∈ c.changes.changed ∨ p ∈ c.changes.unchanged := by
  have hexplains := h.explains c.view.tells
  rw [h.files_commit fun _ _ => rfl, ← List.mem_append, hexplains.changed, hexplains.each.mem_iff,
    List.map_map]
  rfl

theorem Sound.removed_paths {p : Path} : p ∈ c.changes.removed ↔
    p ∈ c.files.map SourceFile.path ∧ p ∉ c.commit.files.map SourceFile.path := by
  have hlatest : c.view.standing.latest.map Prod.fst = c.files.map SourceFile.path := by
    rw [h.files_eq]
    exact List.map_map
  have hstaged : (c.stagedFiles.map SourceFile.mention).map Prod.fst =
      c.commit.files.map SourceFile.path := by
    rw [h.files_commit fun _ _ => rfl]
    exact List.map_map
  rw [(h.explains c.view.tells).removed, hlatest, hstaged, List.mem_filter]
  simp

theorem Sound.nodup_changed : c.changes.changed.Nodup := by
  have hexplains := h.explains c.view.tells
  have hnodup := hexplains.each.nodup_iff.mpr hexplains.once
  exact (List.nodup_append.mp hnodup).1

/-- A file that is committed and did not change is one of the cycle before, under the same id and
with the same hash. -/
theorem Sound.standing_of_unchanged {f : SourceFile} (hf : f ∈ c.commit.files)
    (hunchanged : f.path ∉ c.changes.changed) :
    ∃ g ∈ c.files, g.path = f.path ∧ g.id = f.id ∧ g.hash = f.hash := by
  rw [h.files_commit_eq] at hf
  obtain ⟨e, he, rfl⟩ := List.mem_map.mp hf
  obtain ⟨hin, hstaged⟩ := h.mem_stagedEntries.mp he
  obtain ⟨hid, hpath⟩ := (h.entries e hin).upcoming
  have hverdict : e.verdict = .unchanged := by
    rw [hpath, h.mem_changed_path hin] at hunchanged
    exact Decidable.not_not.mp fun hv => hunchanged ⟨hstaged, hv⟩
  have hlatest := (h.verdict_unchanged c.view.tells hin).mp hverdict
  obtain ⟨hcycle, hash⟩ := (h.mem_latest_of_mem c.view.tells hin).mp hlatest
  exact ⟨e.file, h.mem_files.mpr ⟨e, hin, hcycle, rfl⟩, hpath.symm, hid.symm, hash⟩

/-- A file that is committed and did not change is neither among the changed nor among the removed
ones, however their paths are compared. -/
theorem Sound.contains_of_unchanged (hnormal : c.Normal) {f : SourceFile}
    (hf : f ∈ c.commit.files) (hunchanged : f.path ∉ c.changes.changed) :
    c.changes.contains f.path = false := by
  have hcommit : c.commit.Normal := hnormal.apply h .reset
  have hdirty : ∀ p ∈ c.changes.dirty, p.IsNormal := by
    intro p hp
    rcases List.mem_append.mp hp with hp | hp
    · obtain ⟨g, hg, rfl⟩ := List.mem_map.mp (h.committed_paths.mpr (Or.inl hp))
      exact h.commit.files_normal hcommit hg
    · obtain ⟨g, hg, rfl⟩ := List.mem_map.mp (h.removed_paths.mp hp).1
      exact h.files_normal hnormal hg
  rw [← Bool.not_eq_true, ChangeSet.contains,
    (h.commit.files_normal hcommit hf).among_iff hdirty]
  intro hin
  rcases List.mem_append.mp hin with hin | hin
  · exact hunchanged hin
  · exact (h.removed_paths.mp hin).2 (List.mem_map_of_mem hf)

end

end Cache

/-! ## What a session remembers -/

/-- An operation runs no cycle, or runs it with this compiler. -/
def SessionStep.Uses {σ : Type} (compiler : Compiler σ) : SessionStep σ → Prop
  | .reset c _ _ _ => c = compiler
  | _ => True

namespace Session

/-- Every file of the last cycle has an analysis in the memory of the compiler. -/
def Remembers (s : Session Memo) : Prop :=
  ∀ f ∈ s.cache.files,
    ∃ a, PassThrough.Recalls s.config.options.declaration s.compilerState f a

theorem Remembers.of_files {s s' : Session Memo} (h : s.Remembers) (hconfig : s'.config = s.config)
    (hstate : s'.compilerState = s.compilerState) (hfiles : s'.cache.files = s.cache.files) :
    s'.Remembers := by
  unfold Remembers
  rw [hfiles, hconfig, hstate]
  exact h

section
variable {s : Session Memo} (h : s.cache.Sound)
include h

theorem Remembers.apply (hnormal : s.cache.Normal) (hr : s.Remembers) {step : SessionStep Memo}
    (huses : step.Uses PassThrough.compiler)
    (hcompletes : ∀ a, s.showing? step = some a → a.completed = true) :
    (s.apply step).Remembers := by
  have hsame : ∀ {c : Cache}, c.Sound → c.view = s.cache.view → c.files = s.cache.files :=
    fun hc hv => by rw [hc.files_eq, hv, h.files_eq]
  cases step with
  | addSource p content =>
    exact hr.of_files rfl rfl (hsame (h.stage p content) (h.view_stage p content))
  | loadSources loader =>
    have hstages := loadSources_stages loader s
    simp only [Session.apply]
    rw [loadSources_eq] at hstages ⊢
    exact hr.of_files rfl rfl (hsame (hstages.sound h) (hstages.view h))
  | prune => exact hr.of_files rfl rfl (prune_files h)
  | reset compiler loader outlets o =>
    obtain rfl : compiler = PassThrough.compiler := huses
    have hcompleted := hcompletes _ rfl
    have hcommit := (discover_sound loader h).commit
    simp only [Session.apply]
    rcases reset_cases PassThrough.compiler loader outlets s o with
      ⟨output, o', hdelivered, heq⟩ | ⟨e, o', heq⟩
    · rw [heq]
      obtain ⟨r, _, hresult, _, _⟩ := deliver_ok hdelivered
      have hrecalls := PassThrough.compile_recalls (s.discover loader).cache.changes
        s.compilerState (PassThrough.target_of_compile hresult) hcommit.nodup_files_path
        fun f hf => hcommit.contains_of_mem_files (discover_normal loader h hnormal) hf
      intro f hf
      obtain ⟨a, _, ha⟩ := exists_of_forall₂ hrecalls hf
      exact ⟨a, ha⟩
    · rw [heq] at hcompleted
      cases hcompleted

end

/-- A run in which no cycle failed leaves the last cycle in memory. -/
theorem Reached.remembers {config : BuildConfiguration} {initial : Memo} {s : Session Memo}
    {T : List (Path × Text)} (h : Reached Set.univ Set.univ config initial s T)
    (hr : s.Remembers) {steps : List (SessionStep Memo)}
    (huses : ∀ step ∈ steps, step.Uses PassThrough.compiler)
    (hcompletes : ∀ a ∈ s.showings steps, a.completed = true) :
    (steps.foldl Session.apply s).Remembers := by
  induction steps generalizing s T with
  | nil => exact hr
  | cons step steps ih =>
    obtain ⟨_, hstep⟩ := h.apply step
    refine ih hstep (hr.apply h.sound h.normal (huses step List.mem_cons_self) fun a ha => ?_)
      (fun x hx => huses x (List.mem_cons_of_mem step hx)) fun a ha => ?_
    · exact hcompletes a (List.mem_append_left _ (Option.mem_toList.mpr ha))
    · exact hcompletes a (List.mem_append_right _ ha)

/-! ## What is looked at in a cycle -/

/-- What a compiler looks at in a cycle with these files and changes: files of the cycle, in their
order and each once, and among them every changed one. -/
structure Reanalysis (files : List SourceFile) (changes : ChangeSet) (analyzed : List Path) :
    Prop where
  sublist : analyzed.Sublist (files.map SourceFile.path)
  nodup : analyzed.Nodup
  changed : ∀ p ∈ changes.changed, p ∈ analyzed

section
variable {s : Session Memo} (h : s.cache.Sound) (loader : Loader)
  (htarget : Compile.targetFault? s.config.options.target = none)
include h htarget

theorem compiled_analyzed : (s.compiled PassThrough.compiler loader).2.analyzed =
    ((s.discover loader).cache.commit.files.filter fun f =>
      !PassThrough.serves (s.discover loader).cache.changes s.config.options.declaration
        s.compilerState f).map SourceFile.path :=
  PassThrough.compile_analyzed _ _ htarget (discover_sound loader h).commit.nodup_files_path

theorem compiled_reanalysis : Reanalysis (s.discover loader).cache.commit.files
    (s.discover loader).cache.changes (s.compiled PassThrough.compiler loader).2.analyzed := by
  have hd := discover_sound loader h
  rw [compiled_analyzed h loader htarget]
  refine ⟨List.filter_sublist.map _, ?_, fun p hp => ?_⟩
  · exact hd.commit.nodup_files_path.sublist (List.filter_sublist.map _)
  · obtain ⟨f, hf, rfl⟩ := List.mem_map.mp (hd.committed_paths.mpr (Or.inl hp))
    have hcontains : (s.discover loader).cache.changes.contains f.path = true :=
      Path.among_iff.mpr ⟨f.path, List.mem_append_left _ hp, Path.same_iff.mpr rfl⟩
    exact List.mem_map_of_mem (List.mem_filter.mpr ⟨hf, by simp [PassThrough.serves, hcontains]⟩)

/-- If the last cycle is in memory, only the changed files are looked at. -/
theorem Remembers.analyzed (hnormal : s.cache.Normal) (hr : s.Remembers) :
    (s.compiled PassThrough.compiler loader).2.analyzed.Perm
      (s.discover loader).cache.changes.changed := by
  have hd := discover_sound loader h
  have hcompiled := compiled_reanalysis h loader htarget
  have hstages := stageExternals_stages loader.within_univ s.config.settings.noExternalResolve
    s.cache
  refine (List.perm_ext_iff_of_nodup hcompiled.nodup hd.nodup_changed).mpr fun p =>
    ⟨fun hp => ?_, hcompiled.changed p⟩
  rw [compiled_analyzed h loader htarget] at hp
  obtain ⟨f, hf, rfl⟩ := List.mem_map.mp hp
  obtain ⟨hf, hserves⟩ := List.mem_filter.mp hf
  by_contra hunchanged
  -- the file stood in the last cycle, whose analyses are in memory and fit it
  obtain ⟨g, hg, hpath, hid, hash⟩ := hd.standing_of_unchanged hf hunchanged
  rw [hd.files_eq, discover_view loader h, ← h.files_eq] at hg
  obtain ⟨a, hget, hfits⟩ := hr g hg
  have hcontains := hd.contains_of_unchanged (hstages.normal h hnormal) hf hunchanged
  have hfits' : PassThrough.fits a f s.config.options.declaration = true := by
    rw [← hfits, PassThrough.fits, PassThrough.fits, hid, hash]
  rw [PassThrough.serves, hcontains, ← hpath, hget, Option.any_some, hfits'] at hserves
  cases hserves

end

theorem reset_refused {ο : Type} {s : Session Memo} {e : CompileError}
    (htarget : Compile.targetFault? s.config.options.target = some e) (loader : Loader)
    (outlets : Outlets ο) (o : ο) : s.reset PassThrough.compiler loader outlets o =
      (.error (.compile e), s.fails loader s.compilerState, o) := by
  have hrefused : s.compiled PassThrough.compiler loader = (.error e, s.compilerState) :=
    PassThrough.compile_refused htarget _ _ _
  rw [reset_eq, delivered, hrefused]
  rfl

/-- A cycle whose target is refused looks at nothing. In any other cycle of a session, whichever
cycles failed before and whatever comes of this one, the compiler looks at files of the cycle, in
their order and each once, and among them at every changed one. If no cycle failed before, it looks
at no others. -/
theorem reset_reanalyzes {ο : Type} (config : BuildConfiguration) (initial : Memo)
    (steps : List (SessionStep Memo)) (loader : Loader) (outlets : Outlets ο) (o : ο) :
    let s := runSteps config initial steps
    let s' := (s.reset PassThrough.compiler loader outlets o).2.1
    let next := (s.discover loader).cache
    (∃ e, Compile.targetFault? config.options.target = some e ∧
      (s.reset PassThrough.compiler loader outlets o).1 = .error (.compile e) ∧
      s'.compilerState = s.compilerState) ∨
    Reanalysis next.commit.files next.changes s'.compilerState.analyzed ∧
      (∀ output, (s.reset PassThrough.compiler loader outlets o).1 = .ok output →
        output.changes = next.changes ∧ s'.cache = next.commit) ∧
      ((∀ step ∈ steps, step.Uses PassThrough.compiler) →
        (∀ a ∈ (Session.new config initial).showings steps, a.completed = true) →
        s'.compilerState.analyzed.Perm next.changes.changed) := by
  intro s s' next
  obtain ⟨T, hreached⟩ := runSteps_reached config initial steps
  have hconfig : s.config = config := hreached.config_eq
  cases htarget : Compile.targetFault? config.options.target with
  | some e =>
    rw [← hconfig] at htarget
    have hreset := reset_refused htarget loader outlets o
    exact Or.inl ⟨e, rfl, congrArg Prod.fst hreset,
      congrArg (fun answer => answer.2.1.compilerState) hreset⟩
  | none =>
    rw [← hconfig] at htarget
    have hstate : s'.compilerState = (s.compiled PassThrough.compiler loader).2 :=
      reset_compilerState ..
    rw [hstate]
    refine Or.inr ⟨compiled_reanalysis hreached.sound loader htarget,
      fun output hok => reset_commits hok, fun huses hcompletes => ?_⟩
    have hnew : (Session.new config initial).Remembers := fun _ hf => absurd hf List.not_mem_nil
    have hremembers := Reached.new.remembers hnew huses hcompletes
    exact hremembers.analyzed hreached.sound loader htarget hreached.normal

/-- Two files go through a cycle, and both are staged again, one of them with another content. -/
def editing : List (SessionStep Memo) :=
  let outlets := Outlets.pair Shelf.outlet Shelf.outlet
  [.addSource "/p/a.ts" "let a = 1;".toList, .addSource "/p/b.ts" "let b = 1;".toList,
    .reset PassThrough.compiler .empty outlets (.empty, .empty),
    .addSource "/p/a.ts" "let a = 1;".toList, .addSource "/p/b.ts" "let b = 2;".toList]

def editingReset : Except SessionError CycleOutput × Session Memo × Shelf × Shelf :=
  (runSteps (.of "/p/project.json" .empty .initial) Memo.empty editing).reset PassThrough.compiler
    .empty (.pair Shelf.outlet Shelf.outlet) (.empty, .empty)

theorem editing_reanalyzes :
    editingReset.1.isOk = true ∧
    editingReset.2.1.cache.files.map SourceFile.path = [("/p/a.ts" : Path), "/p/b.ts"] ∧
    editingReset.2.1.compilerState.analyzed = [("/p/b.ts" : Path)] := by
  have hok : editingReset.1.isOk = true := by decide +kernel
  have hfiles : editingReset.2.1.cache.files.map SourceFile.path =
      [("/p/a.ts" : Path), "/p/b.ts"] := by decide +kernel
  have huses : ∀ step ∈ editing, step.Uses PassThrough.compiler := by
    simp [editing, SessionStep.Uses]
  have hcompletes : ∀ a ∈ (Session.new (.of "/p/project.json" .empty .initial)
      Memo.empty).showings editing, a.completed = true := by decide +kernel
  have hchanged : ((runSteps (.of "/p/project.json" .empty .initial) Memo.empty editing).discover
      .empty).cache.changes.changed = [("/p/b.ts" : Path)] := by decide +kernel
  refine ⟨hok, hfiles, ?_⟩
  rcases reset_reanalyzes (.of "/p/project.json" .empty .initial) Memo.empty editing .empty
    (.pair Shelf.outlet Shelf.outlet) (.empty, .empty) with ⟨e, hrefused, _⟩ | ⟨_, _, hanalyzed⟩
  · cases hrefused
  · rw [← List.perm_singleton, ← hchanged]
    unfold editingReset
    exact hanalyzed huses hcompletes

/-- Of a cycle whose target is refused nothing is looked at, though a file is new. -/
theorem mistargeted_analyzes_nothing :
    Reached PassThrough.compilers Set.univ mistargeted.config Memo.empty mistargeted
      [("/p/a.ts", "let a;".toList)] ∧
    (mistargeted.discover .empty).cache.changes.changed = [("/p/a.ts" : Path)] ∧
    (mistargeted.reset PassThrough.compiler .empty (.pair Shelf.outlet Shelf.outlet)
      (.empty, .empty)).2.1.compilerState.analyzed = [] := by
  refine ⟨Reached.new.addSource "/p/a.ts" (Set.mem_univ _), ?_⟩
  decide +kernel

end Session

end IncrementalBuild
