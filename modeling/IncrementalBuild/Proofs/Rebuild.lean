import IncrementalBuild.Proofs.Emission
import IncrementalBuild.Proofs.ReachableCaches
import IncrementalBuild.Proofs.ReferenceClosure
import IncrementalBuild.Proofs.RememberedAnalyses
import IncrementalBuild.Proofs.RepeatedDiscovery
import IncrementalBuild.Proofs.Retry
/-!
# Building again

A build that follows a build of the same sources is a no-op: nothing changed, no file is looked at
again, and the outlets receive what they received before. What came before the first build does not
matter, since the second one compares itself with the first: staged files are compared by their
hashes with those that were just committed, and analyses with the files that they were just used
for.
-/
namespace IncrementalBuild

/-! ## Nothing changed -/

/-- Every file of a cycle is unchanged, and no other file was removed. -/
structure ChangeSet.KeepsAll (cs : ChangeSet) (paths : List Path) : Prop where
  added : cs.added = []
  modified : cs.modified = []
  reappeared : cs.reappeared = []
  removed : cs.removed = []
  unchanged : cs.unchanged = paths

theorem ChangeSet.KeepsAll.contains {cs : ChangeSet} {paths : List Path} (h : cs.KeepsAll paths)
    (p : Path) : cs.contains p = false := by
  unfold ChangeSet.contains ChangeSet.dirty ChangeSet.changed
  rw [h.added, h.modified, h.reappeared, h.removed]
  rfl

theorem Standing.Explains.keepsAll {b : Standing} {cs : ChangeSet} (h : b.Explains b.latest cs) :
    cs.KeepsAll (b.latest.map Prod.fst) := by
  have hunchanged : cs.unchanged = b.latest.map Prod.fst := by
    rw [h.unchanged, List.filter_eq_self.mpr fun _ hf => decide_eq_true hf]
  have hremoved : cs.removed = [] := by
    rw [h.removed, List.filter_eq_nil_iff]
    exact fun p hp => by simp [decide_eq_true hp]
  -- every file stands in one list only, and all of them stand in this one
  have hlength := h.each.length_eq
  rw [← hunchanged, List.length_append] at hlength
  have hothers : cs.added ++ cs.modified ++ cs.reappeared = [] :=
    List.eq_nil_of_length_eq_zero (by omega)
  rw [List.append_eq_nil_iff, List.append_eq_nil_iff] at hothers
  obtain ⟨⟨hadded, hmodified⟩, hreappeared⟩ := hothers
  exact ⟨hadded, hmodified, hreappeared, hremoved, hunchanged⟩

namespace Cache

theorem WellFormed.contains_of_mem_files {c : Cache} (h : c.WellFormed) (hnormal : c.Normal)
    {f : SourceFile} (hf : f ∈ c.files) : c.contains f.path = true := by
  obtain ⟨e, he, hin, rfl⟩ := h.mem_files.mp hf
  have hlookup := h.lookup?_eq_some_iff.mpr ⟨he, (hnormal e he).symm⟩
  show (c.lookup? e.path).any Entry.inCycle = true
  rw [hlookup]
  exact hin

theorem Stages.normal {contents : Set Text} {a b : Cache} (h : Stages contents a b)
    (ha : a.Sound) (hnormal : a.Normal) : b.Normal := by
  induction h with
  | refl => exact hnormal
  | stage h p _ ih => exact ih.stage (h.sound ha) p _
  | mark h p ih => exact ih.markExternal (h.sound ha) p

/-! ## A cycle that is repeated -/

namespace Echoes

variable {c c' : Cache} (h : Echoes c.commit c c')
include h

theorem files_commit : c'.commit.files = c.commit.files := by
  rw [h.sound'.files_commit_eq, h.sound.files_commit_eq, h.upcoming]

theorem sameCycle : SameCycle id c.commit c'.commit := by
  have hid : ∀ f : SourceFile, f.rename id = f := by
    intro f
    show { f with references := f.references.map id } = f
    rw [List.map_id]
  refine ⟨h.sound.commit, h.sound'.commit, ?_⟩
  simp only [h.files_commit, hid]

theorem keepsAll : c'.changes.KeepsAll (c.commit.files.map SourceFile.path) := by
  have hfiles : c.commit.files.map SourceFile.mention = c'.view.files.map SourceFile.mention := by
    rw [h.sound.commit.files_eq, h.view]
  have hstaged : c'.stagedFiles.map SourceFile.mention =
      c'.view.files.map SourceFile.mention := by
    rw [← c'.upcoming_map SourceFile.mention_unmarked, h.upcoming, ← h.sound.files_commit_eq,
      hfiles]
  have hexplains := h.sound'.explains c'.view.tells
  rw [hstaged] at hexplains
  have hkeeps := hexplains.keepsAll
  unfold CommittedView.standing at hkeeps
  rw [← hfiles, List.map_map] at hkeeps
  exact hkeeps

end Echoes

end Cache

namespace Session

variable {σ ο : Type}

theorem discover_normal (loader : Loader) {s : Session σ} (h : s.cache.Sound)
    (hnormal : s.cache.Normal) : (s.discover loader).cache.commit.Normal :=
  ((stageExternals_stages loader.within_univ _ s.cache).normal h hnormal).apply
    (discover_sound loader h) .reset

theorem Reached.normal {compilers : Set (Compiler σ)} {contents : Set Text}
    {config : BuildConfiguration} {initial : σ} {s : Session σ} {T : List (Path × Text)}
    (h : Reached compilers contents config initial s T) : s.cache.Normal := by
  induction h with
  | new => exact fun _ he => absurd he List.not_mem_nil
  | addSource h p _ ih => exact ih.stage h.sound p _
  | @loadSources s _ h loader _ ih => exact (loadSources_stages loader s).normal h.sound ih
  | @prune s _ h ih => exact ih.apply h.sound (.prune (s.cache.files.map SourceFile.path))
  | @reset s _ h _ compiler _ loader _ outlets o ih =>
    have hcommit := discover_normal loader h.sound ih
    rcases reset_cases compiler loader outlets s o with ⟨output, o', _, heq⟩ | ⟨e, o', heq⟩
    · rw [heq]
      exact hcommit
    · rw [heq]
      exact hcommit.apply (discover_sound loader h.sound).commit .rollback

/-! ## The same sources again -/

/-- After a cycle of the configured files, loading them and discovering again stages the files of
that cycle and warns of the same references. -/
theorem discover_again {loader : Loader} {s s₁ : Session σ} {paths : List Path}
    (hs : s.cache.Sound) (hnone : s.cache.stagedFiles = [])
    (hload : s.loadSources loader = (.ok paths, s₁)) {r : Session σ}
    (hconfig : r.config = s₁.config) (hcache : r.cache = (s₁.discover loader).cache.commit) :
    ∃ r₁, r.loadSources loader = (.ok paths, r₁) ∧ r₁.config = r.config ∧
      r₁.compilerState = r.compilerState ∧
      Discovery.Echoes (s₁.discover loader).cache.commit (s₁.discover loader)
        (r₁.discover loader) := by
  have hstages := loadSources_stages loader s
  rw [hload] at hstages
  have hloaded : s₁.cache.Sound := hstages.sound hs
  have hd := discover_sound loader hloaded
  obtain ⟨sources, rfl, hpaths, hnodup, hnormal, hagain⟩ := loadSources_ok hload
  -- before the first build and after it nothing is staged
  have hnothing : s.cache.upcoming = [] := by
    rw [Cache.stagedFiles_eq, List.map_eq_nil_iff] at hnone
    rw [Cache.upcoming, hnone, List.map_nil]
  have hstart : Cache.Echoes r.cache s.cache r.cache := by
    rw [hcache]
    exact ⟨hs, hd.commit, rfl, hnothing.symm⟩
  have hfresh : s.cache.Fresh sources := by
    refine ⟨fun source hsource => hnormal _ (hpaths ▸ List.mem_map_of_mem hsource), ?_⟩
    rw [hnothing, hpaths]
    exact hnodup
  have hbase : r.cache.Sound := hcache ▸ hd.commit
  -- the first discovery ends with the files of the cycle
  have hend : (stageExternals loader s.config.settings.noExternalResolve
      (stageAll s.cache sources)).cache.upcoming <+: r.cache.files := by
    rw [hcache, hd.files_commit_eq]
    exact List.prefix_refl _
  have hloads := hstart.stageAll hbase hfresh
    ((Discovery.stageExternals_adds loader _ hloaded).trans hend)
  have hdiscovers := hloads.stageExternals hbase loader _ hend
  refine ⟨_, hagain r hconfig, rfl, rfl, ?_⟩
  rw [hcache] at hdiscovers
  unfold discover
  rw [hconfig, hcache]
  exact hdiscovers

/-! ## What the outlets receive -/

/-- The calls that a reset makes to its outlets. -/
def sent (compiler : Compiler σ) (loader : Loader) (outlets : Outlets ο) (s : Session σ) (o : ο) :
    List CallRecord :=
  (s.reset compiler loader outlets.recorded (o, [])).2.2.2

theorem deliver_recorded (outlets : Outlets ο) (config : BuildConfiguration) (sources : Cache)
    (changes : ChangeSet) (found : DiagnosticLog) (r : CompileResult) (o : ο) :
    (deliver outlets.recorded config sources changes found (.ok r) (o, [])).2.2 =
      (Assembly.new sources config r).calls outlets o := by
  unfold deliver Assembly.calls
  dsimp only
  rcases (Assembly.new sources config r).emit outlets.recorded (o, []) with ⟨result, o', calls⟩
  cases result <;> rfl

/-- A reset that completes offers the outputs of its cycle in their order and ends both streams,
and no call is refused. -/
theorem sent_eq {compiler : Compiler σ} {loader : Loader} {outlets : Outlets ο} {s : Session σ}
    {o o' : ο} {output : CycleOutput}
    (h : s.delivered compiler loader outlets o = (.ok output, o')) :
    s.sent compiler loader outlets o =
      (output.assembly.outputs.map fun f => ⟨.push f.kind f, .ok ()⟩) ++
        Emission.closing (.ok ()) (.ok ()) := by
  obtain ⟨r, stats, hr, hemit, rfl⟩ := deliver_ok h
  have hdelivers := congrArg (fun answer => answer.2.2)
    (reset_delivers compiler loader outlets.recorded s (o, []))
  unfold delivered at hdelivers
  rw [hr, deliver_recorded, Assembly.calls_of_ok (congrArg Prod.fst hemit)] at hdelivers
  exact hdelivers

theorem deliver_of_accepts {outlets : Outlets ο} {o : ο} (haccepts : outlets.Accepts o)
    (config : BuildConfiguration) (sources : Cache) (changes : ChangeSet) (found : DiagnosticLog)
    (r : CompileResult) :
    ∃ o', deliver outlets config sources changes found (.ok r) o =
      (.ok
        { cycle := changes.cycle
          changes
          diagnostics := Diagnostic.sort sources
            (found.extend (Assembly.new sources config r).diagnostics).held
          assembly := Assembly.new sources config r
          stats := Emission.tally (Assembly.new sources config r).outputs }, o') := by
  have hemits := Assembly.emit_of_accepts haccepts (a := Assembly.new sources config r)
  rcases hemit : (Assembly.new sources config r).emit outlets o with ⟨emitted, o'⟩
  rw [hemit] at hemits
  cases hemits
  exact ⟨o', deliver_of_emit changes found hemit⟩

theorem reset_of_accepts {compiler : Compiler σ} {loader : Loader} {outlets : Outlets ο}
    {s : Session σ} {o : ο} {result : CompileResult}
    (hresult : (s.compiled compiler loader).1 = .ok result) (haccepts : outlets.Accepts o) :
    ∃ output o', s.reset compiler loader outlets o =
      (.ok output, s.completes loader output (s.compiled compiler loader).2, o') := by
  obtain ⟨o', hdeliver⟩ := deliver_of_accepts haccepts s.config (s.discover loader).cache.commit
    (s.discover loader).cache.changes (s.discover loader).log result
  rw [← hresult] at hdeliver
  rw [reset_eq, delivered, hdeliver]
  exact ⟨_, o', rfl⟩

/-! ## The second build -/

/-- A build that left `s'` and gave `output'` repeats one that left `s` and gave `output`. It has
the same files in the same order, of which none changed and none was looked at again, the same
diagnostics, and the same calls to the outlets with the same answers. -/
structure Repeats (s s' : Session Memo) (output output' : CycleOutput)
    (calls calls' : List CallRecord) : Prop where
  files : s'.cache.files = s.cache.files
  changes : output'.changes.KeepsAll (s'.cache.files.map SourceFile.path)
  analyzed : s'.compilerState.analyzed = []
  diagnostics : output'.diagnostics = output.diagnostics
  calls : calls' = calls

/-- In a session in step with the one before it, whose compiler remembers that one's cycle, the
second build gives what the first gave. -/
theorem delivered_again {ο' : Type} {loader : Loader} {s r : Session Memo} {outlets : Outlets ο}
    {o o' : ο} {output : CycleOutput} (hnormal : (s.discover loader).cache.commit.Normal)
    (h : Discovery.Echoes (s.discover loader).cache.commit (s.discover loader) (r.discover loader))
    (hconfig : r.config = s.config)
    (hstate : r.compilerState = (s.compiled PassThrough.compiler loader).2)
    (hok : s.delivered PassThrough.compiler loader outlets o = (.ok output, o'))
    {outlets' : Outlets ο'} {o₂ : ο'} (haccepts : outlets'.Accepts o₂) :
    (r.compiled PassThrough.compiler loader).2.analyzed = [] ∧
      ∃ o₃, r.delivered PassThrough.compiler loader outlets' o₂ =
        (.ok
          { cycle := (r.discover loader).cache.changes.cycle
            changes := (r.discover loader).cache.changes
            diagnostics := output.diagnostics
            assembly := output.assembly
            stats := Emission.tally output.assembly.outputs }, o₃) := by
  have hbase := h.sound.commit
  have hsame := h.toEchoes.sameCycle
  obtain ⟨result, stats, hresult, _, rfl⟩ := deliver_ok hok
  have hcompiled : (r.compiled PassThrough.compiler loader).1 = .ok result ∧
      (r.compiled PassThrough.compiler loader).2.analyzed = [] := by
    unfold compiled
    rw [hconfig, hstate]
    refine PassThrough.compile_again h.toEchoes.files_commit hbase.nodup_files_path
      (fun f hf => hbase.contains_of_mem_files hnormal hf) (fun f _ => ?_) hresult
    exact h.toEchoes.keepsAll.contains f.path
  refine ⟨hcompiled.2, ?_⟩
  obtain ⟨o₃, hdeliver⟩ := deliver_of_accepts haccepts s.config (r.discover loader).cache.commit
    (r.discover loader).cache.changes (r.discover loader).log result
  refine ⟨o₃, ?_⟩
  rw [delivered, hcompiled.1, hconfig, hdeliver]
  simp only [hsame.assembly_eq, hsame.sort_eq, h.log]

/-- After any run of operations, if nothing is staged and the configured files are loaded and
built, then loading and building them again comes through, as long as the outlets refuse nothing,
and repeats that build. -/
theorem rebuild_unchanged {contents : Set Text} {config : BuildConfiguration}
    {s s₁ s₂ : Session Memo} {T : List (Path × Text)}
    (hs : Reached PassThrough.compilers contents config Memo.empty s T)
    (hnone : s.cache.stagedFiles = []) {loader : Loader} {paths : List Path}
    (hload : s.loadSources loader = (.ok paths, s₁)) {ο ο' : Type} {outlets : Outlets ο}
    {o o' : ο} {output : CycleOutput}
    (hok : s₁.reset PassThrough.compiler loader outlets o = (.ok output, s₂, o'))
    {outlets' : Outlets ο'} {o₂ : ο'} (haccepts : outlets'.Accepts o₂) :
    ∃ s₃ output' s₄ o₃, s₂.loadSources loader = (.ok paths, s₃) ∧
      s₃.reset PassThrough.compiler loader outlets' o₂ = (.ok output', s₄, o₃) ∧
      Repeats s₂ s₄ output output' (s₁.sent PassThrough.compiler loader outlets o)
        (s₃.sent PassThrough.compiler loader outlets' o₂) := by
  obtain ⟨hdelivered, rfl⟩ := reset_ok hok
  obtain ⟨s₃, hagain, hconfig, hstate, hechoes⟩ := discover_again hs.sound hnone hload
    (r := s₁.completes loader output (s₁.compiled PassThrough.compiler loader).2) rfl rfl
  have hloads := loadSources_stages loader s
  rw [hload] at hloads
  have hnormal := discover_normal loader (hloads.sound hs.sound)
    (hloads.normal hs.sound hs.normal)
  obtain ⟨hanalyzed, o₃, hsecond⟩ :=
    delivered_again hnormal hechoes hconfig hstate hdelivered haccepts
  have hreset := reset_eq PassThrough.compiler loader outlets' s₃ o₂
  rw [hsecond] at hreset
  have hfiles := hechoes.toEchoes.files_commit
  have hkeeps := hechoes.toEchoes.keepsAll
  rw [← hfiles] at hkeeps
  refine ⟨s₃, _, _, o₃, hagain, hreset, hfiles, hkeeps, hanalyzed, rfl, ?_⟩
  rw [sent_eq hsecond, sent_eq hdelivered]

/-- A loader with a file that refers to the library and to a file that is missing. -/
def checkout : Loader :=
  library.insert "/p/a.ts"
    "/// <reference path=\"lib/b.ts\" />\n/// <reference path=\"gone.ts\" />\n".toList

/-- A session of a project that lists that file and asks for a bundle. One cycle is complete, with
another content of a file of the library. -/
def bundled : Session Memo :=
  let project : ProjectConfig := { ProjectConfig.empty with
    files := some ["a.ts".toList]
    options := { CompilerOptions.empty with out := some "all.js".toList } }
  let config := BuildConfiguration.of "/p/project.json" project .initial
  let first := ((Session.new config Memo.empty).addSource "/p/lib/b.ts" "let b = 1;".toList).2
  (first.reset PassThrough.compiler .empty (.pair Shelf.outlet Shelf.outlet)
    (.empty, .empty)).2.1

/-- A file of the cycle refers to one that is missing, and two refer to each other. -/
theorem rebuild_unchanged_of_bundled : ∃ s₁ s₂ s₃ s₄ output output' o' o₃,
    bundled.loadSources checkout = (.ok ["/p/a.ts"], s₁) ∧
    s₁.reset PassThrough.compiler checkout (.pair Shelf.outlet Shelf.outlet) (.empty, .empty) =
      (.ok output, s₂, o') ∧
    (s₁.discover checkout).log.held.length = 1 ∧ output.assembly.cycles.length = 1 ∧
    s₂.loadSources checkout = (.ok ["/p/a.ts"], s₃) ∧
    s₃.reset PassThrough.compiler checkout (.pair Shelf.outlet Shelf.outlet) (.empty, .empty) =
      (.ok output', s₄, o₃) ∧
    Repeats s₂ s₄ output output'
      (s₁.sent PassThrough.compiler checkout (.pair Shelf.outlet Shelf.outlet) (.empty, .empty))
      (s₃.sent PassThrough.compiler checkout (.pair Shelf.outlet Shelf.outlet)
        (.empty, .empty)) := by
  have hreached : Reached PassThrough.compilers Set.univ bundled.config Memo.empty bundled [] :=
    (Reached.new.addSource "/p/lib/b.ts" (Set.mem_univ _)).reset PassThrough.compiler_mem
      (Loader.within_univ _) _ _
  have hnone : bundled.cache.stagedFiles = [] := by decide +kernel
  have hpaths : (bundled.loadSources checkout).1 = .ok ["/p/a.ts"] := by decide +kernel
  have hcomes : ((bundled.loadSources checkout).2.reset PassThrough.compiler checkout
      (.pair Shelf.outlet Shelf.outlet) (.empty, .empty)).1.toOption.map
        (·.assembly.cycles.length) = some 1 := by decide +kernel
  have hwarns : ((bundled.loadSources checkout).2.discover checkout).log.held.length = 1 := by
    decide +kernel
  rcases hload : bundled.loadSources checkout with ⟨paths, s₁⟩
  rw [hload] at hpaths hcomes hwarns
  rcases hok : s₁.reset PassThrough.compiler checkout (.pair Shelf.outlet Shelf.outlet)
    (.empty, .empty) with ⟨result, s₂, o'⟩
  rw [hok] at hcomes
  cases hpaths
  cases result with
  | error e => cases hcomes
  | ok output =>
    obtain ⟨s₃, output', s₄, o₃, hagain, hreset, hrepeats⟩ :=
      rebuild_unchanged hreached hnone hload hok Outlets.shelves_accept
    exact ⟨s₁, s₂, s₃, s₄, output, output', o', o₃, rfl, hok, hwarns,
      Option.some.inj hcomes, hagain, hreset, hrepeats⟩

end Session

end IncrementalBuild
