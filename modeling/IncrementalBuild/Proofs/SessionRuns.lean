import IncrementalBuild.Compile.PassThrough
import IncrementalBuild.Proofs.DiscoveryRuns
import IncrementalBuild.Session.Basic
/-!
# Runs of sessions

The sessions that a run of operations leads to, with what they have staged since the last reset.
Every one of them has a sound cache. The two ways a reset can end are told apart here once, and
every later fact about a reset starts from them.
-/
namespace IncrementalBuild

/-- The pass-through compiler, and the compilers that fail in its place. -/
def PassThrough.compilers : Set (Compiler Memo) :=
  {c | c = compiler ∨ ∃ message, c = compiler.failing message}

theorem PassThrough.compiler_mem : compiler ∈ compilers := Or.inl rfl

theorem PassThrough.failing_mem (message : Text) : compiler.failing message ∈ compilers :=
  Or.inr ⟨message, rfl⟩

namespace Session

variable {σ ο : Type}

/-- The sources that are staged when the configured files are loaded. -/
def loadable (loader : Loader) (s : Session σ) : List (Path × Text) :=
  match s.resolveSources loader with
  | .error _ => []
  | .ok paths => (readAll loader paths).toOption.getD []

/-- The sessions that a run leads to, each with the sources staged since its last reset. A run
stages sources of `contents`, loads the configured files, prunes, and resets with any of the
compilers, any loader of `contents` and any outlets; resets may fail. -/
inductive Reached (compilers : Set (Compiler σ)) (contents : Set Text)
    (config : BuildConfiguration) (initial : σ) : Session σ → List (Path × Text) → Prop
  | new : Reached compilers contents config initial (Session.new config initial) []
  | addSource {s : Session σ} {T : List (Path × Text)}
    (h : Reached compilers contents config initial s T) (p : Path) {content : Text}
    (hcontent : content ∈ contents) :
    Reached compilers contents config initial (s.addSource p content).2 (T ++ [(p, content)])
  | loadSources {s : Session σ} {T : List (Path × Text)}
    (h : Reached compilers contents config initial s T) {loader : Loader}
    (hloader : loader.Within contents) :
    Reached compilers contents config initial (s.loadSources loader).2 (T ++ s.loadable loader)
  | prune {s : Session σ} {T : List (Path × Text)}
    (h : Reached compilers contents config initial s T) :
    Reached compilers contents config initial s.prune.2
      (T.filter fun source => source.1.normalize.among (s.cache.files.map SourceFile.path))
  | reset {s : Session σ} {T : List (Path × Text)}
    (h : Reached compilers contents config initial s T) {ο : Type} {compiler : Compiler σ}
    (hcompiler : compiler ∈ compilers) {loader : Loader} (hloader : loader.Within contents)
    (outlets : Outlets ο) (o : ο) :
    Reached compilers contents config initial (s.reset compiler loader outlets o).2.1 []

/-! ## The parts of a run -/

/-- The discovery that a reset starts with. -/
def discover (loader : Loader) (s : Session σ) : Discovery :=
  stageExternals loader s.config.settings.noExternalResolve s.cache

/-- What the compiler gives for the next cycle, and the state it is left in. -/
def compiled (compiler : Compiler σ) (loader : Loader) (s : Session σ) :
    Except CompileError CompileResult × σ :=
  compiler.compile s.config (s.discover loader).cache.commit (s.discover loader).cache.changes
    s.compilerState

/-- What becomes of a result of the compiler: it is assembled and pushed through the outlets. -/
def deliver (outlets : Outlets ο) (config : BuildConfiguration) (sources : Cache)
    (changes : ChangeSet) (found : DiagnosticLog) (result : Except CompileError CompileResult)
    (o : ο) : Except SessionError CycleOutput × ο :=
  match result with
  | .error e => (.error (.compile e), o)
  | .ok result =>
    let assembly := Assembly.new sources config result
    match assembly.emit outlets o with
    | (.error e, o) => (.error (.emit e), o)
    | (.ok stats, o) =>
      (.ok
        { cycle := changes.cycle
          changes
          diagnostics := Diagnostic.sort sources (found.extend assembly.diagnostics).held
          assembly
          stats }, o)

def delivered (compiler : Compiler σ) (loader : Loader) (outlets : Outlets ο) (s : Session σ)
    (o : ο) : Except SessionError CycleOutput × ο :=
  deliver outlets s.config (s.discover loader).cache.commit (s.discover loader).cache.changes
    (s.discover loader).log (s.compiled compiler loader).1 o

def completes (s : Session σ) (loader : Loader) (output : CycleOutput) (compilerState : σ) :
    Session σ :=
  { s with
    compilerState
    cache := (s.discover loader).cache.commit
    current := some output
    previous := s.current
    completed := s.completed + 1 }

def fails (s : Session σ) (loader : Loader) (compilerState : σ) : Session σ :=
  { s with compilerState, cache := (s.discover loader).cache.commit.rollback.2 }

/-- A result that is delivered is assembled, and all its outputs come through. -/
theorem deliver_ok {outlets : Outlets ο} {config : BuildConfiguration} {sources : Cache}
    {changes : ChangeSet} {found : DiagnosticLog} {result : Except CompileError CompileResult}
    {o o' : ο} {output : CycleOutput}
    (h : deliver outlets config sources changes found result o = (.ok output, o')) :
    ∃ r stats, result = .ok r ∧ (Assembly.new sources config r).emit outlets o = (.ok stats, o') ∧
      output =
        { cycle := changes.cycle
          changes
          diagnostics := Diagnostic.sort sources
            (found.extend (Assembly.new sources config r).diagnostics).held
          assembly := Assembly.new sources config r
          stats } := by
  unfold deliver at h
  cases result with
  | error e => cases h
  | ok r =>
    dsimp only at h
    split at h
    · cases h
    · next stats o₁ hemit =>
      simp only [Prod.mk.injEq, Except.ok.injEq] at h
      obtain ⟨rfl, rfl⟩ := h
      exact ⟨r, stats, rfl, hemit, rfl⟩

theorem deliver_of_emit {outlets : Outlets ο} {config : BuildConfiguration}
    {sources : Cache} (changes : ChangeSet) (found : DiagnosticLog) {r : CompileResult}
    {o o' : ο} {stats : EmitStats}
    (h : (Assembly.new sources config r).emit outlets o = (.ok stats, o')) :
    deliver outlets config sources changes found (.ok r) o =
      (.ok
        { cycle := changes.cycle
          changes
          diagnostics := Diagnostic.sort sources
            (found.extend (Assembly.new sources config r).diagnostics).held
          assembly := Assembly.new sources config r
          stats }, o') := by
  unfold deliver
  simp only [h]

section
variable (compiler : Compiler σ) (loader : Loader) (outlets : Outlets ο) (s : Session σ) (o : ο)

/-- A reset discovers, compiles and delivers, and what is delivered decides how it ends. -/
theorem reset_eq : s.reset compiler loader outlets o =
    match s.delivered compiler loader outlets o with
    | (.ok output, o') =>
      (.ok output, s.completes loader output (s.compiled compiler loader).2, o')
    | (.error e, o') => (.error e, s.fails loader (s.compiled compiler loader).2, o') := by
  unfold reset build delivered deliver compiled discover
  simp only [Cache.reset]
  split
  · next heq =>
    split at heq
    · cases heq
    · next hcompile =>
      split at heq
      · cases heq
      · next hemit =>
        cases heq
        simp only [hcompile, hemit]
        rfl
  · next heq =>
    split at heq
    · next hcompile =>
      cases heq
      simp only [hcompile]
      rfl
    · next hcompile =>
      split at heq
      · next hemit =>
        cases heq
        simp only [hcompile, hemit]
        rfl
      · cases heq

theorem reset_delivers : ((s.reset compiler loader outlets o).1,
    (s.reset compiler loader outlets o).2.2) = s.delivered compiler loader outlets o := by
  rw [reset_eq]
  rcases s.delivered compiler loader outlets o with ⟨result, o'⟩
  cases result <;> rfl

theorem reset_cases :
    (∃ output o', s.delivered compiler loader outlets o = (.ok output, o') ∧
      s.reset compiler loader outlets o =
        (.ok output, s.completes loader output (s.compiled compiler loader).2, o')) ∨
    (∃ e o', s.reset compiler loader outlets o =
      (.error e, s.fails loader (s.compiled compiler loader).2, o')) := by
  rw [reset_eq]
  rcases s.delivered compiler loader outlets o with ⟨result, o'⟩
  cases result with
  | ok output => exact Or.inl ⟨output, o', rfl, rfl⟩
  | error e => exact Or.inr ⟨e, o', rfl⟩

variable {compiler loader outlets s o} in
theorem reset_ok {s' : Session σ} {o' : ο} {output : CycleOutput}
    (h : s.reset compiler loader outlets o = (.ok output, s', o')) :
    s.delivered compiler loader outlets o = (.ok output, o') ∧
      s' = s.completes loader output (s.compiled compiler loader).2 := by
  rcases reset_cases compiler loader outlets s o with ⟨_, _, hdelivered, heq⟩ | ⟨_, _, heq⟩
  · cases heq.symm.trans h
    exact ⟨hdelivered, rfl⟩
  · cases heq.symm.trans h

variable {compiler loader outlets s o} in
/-- A reset that completes a cycle reports the changes of the cycle that it commits. -/
theorem reset_commits {output : CycleOutput}
    (h : (s.reset compiler loader outlets o).1 = .ok output) :
    output.changes = (s.discover loader).cache.changes ∧
      (s.reset compiler loader outlets o).2.1.cache = (s.discover loader).cache.commit := by
  rcases reset_cases compiler loader outlets s o with ⟨_, _, hdelivered, heq⟩ | ⟨_, _, heq⟩
  · rw [heq] at h ⊢
    cases h
    obtain ⟨_, _, _, _, rfl⟩ := deliver_ok hdelivered
    exact ⟨rfl, rfl⟩
  · rw [heq] at h
    cases h

theorem reset_compilerState : (s.reset compiler loader outlets o).2.1.compilerState =
    (s.compiled compiler loader).2 := by
  rw [reset_eq]
  rcases s.delivered compiler loader outlets o with ⟨result, o'⟩
  cases result <;> rfl

theorem reset_failing (message : Text) : s.reset (compiler.failing message) loader outlets o =
    (.error (.compile (.backend compiler.name message)), s.fails loader s.compilerState, o) :=
  reset_eq ..

end

/-! ## Staging many sources -/

theorem stageAll_stages {contents : Set Text} {sources : List (Path × Text)}
    (h : ∀ source ∈ sources, source.2 ∈ contents) (c : Cache) :
    c.Stages contents (stageAll c sources) := by
  induction sources generalizing c with
  | nil => exact .refl
  | cons source sources ih =>
    have hrest := ih (fun x hx => h x (List.mem_cons_of_mem source hx))
      (c.stage source.1 source.2).2
    exact (Cache.Stages.refl.stage source.1 (h source List.mem_cons_self)).trans hrest

/-- What is read are the contents that the loader has for the paths. -/
theorem readAll_ok {loader : Loader} {paths : List Path} {sources : List (Path × Text)}
    (h : readAll loader paths = .ok sources) :
    sources.map Prod.fst = paths ∧ ∀ source ∈ sources, loader.read source.1 = .ok source.2 := by
  induction paths generalizing sources with
  | nil =>
    cases h
    exact ⟨rfl, fun _ hx => absurd hx List.not_mem_nil⟩
  | cons p rest ih =>
    unfold readAll at h
    split at h
    · cases h
    · next content hread =>
      split at h
      · cases h
      · next more hmore =>
        cases h
        obtain ⟨hpaths, hreads⟩ := ih hmore
        exact ⟨by rw [List.map_cons, hpaths], List.forall_mem_cons.mpr ⟨hread, hreads⟩⟩

theorem readAll_within {contents : Set Text} {loader : Loader} (hloader : loader.Within contents)
    {paths : List Path} {sources : List (Path × Text)}
    (h : readAll loader paths = .ok sources) : ∀ source ∈ sources, source.2 ∈ contents :=
  fun source hs => hloader.read ((readAll_ok h).2 source hs)

/-- Loading the configured files stages what can be loaded, and nothing if a file is missing. -/
theorem loadSources_eq (loader : Loader) (s : Session σ) :
    (s.loadSources loader).2 = { s with cache := stageAll s.cache (s.loadable loader) } := by
  unfold loadSources loadable
  cases s.resolveSources loader with
  | error e => rfl
  | ok paths =>
    dsimp only
    cases readAll loader paths with
    | error e => rfl
    | ok sources => rfl

theorem loadable_within {contents : Set Text} {loader : Loader}
    (hloader : loader.Within contents) (s : Session σ) :
    ∀ source ∈ s.loadable loader, source.2 ∈ contents := by
  unfold loadable
  cases s.resolveSources loader with
  | error e => exact fun _ hx => absurd hx List.not_mem_nil
  | ok paths =>
    dsimp only
    cases hread : readAll loader paths with
    | error e => exact fun _ hx => absurd hx List.not_mem_nil
    | ok sources => exact readAll_within hloader hread

theorem loadSources_stages (loader : Loader) (s : Session σ) :
    s.cache.Stages Set.univ (s.loadSources loader).2.cache := by
  rw [loadSources_eq]
  exact stageAll_stages (fun _ _ => Set.mem_univ _) s.cache

/-! ## Every cache is sound -/

section
variable (loader : Loader) {s : Session σ} (h : s.cache.Sound)
include h

theorem discover_sound : (s.discover loader).cache.Sound :=
  (stageExternals_stages loader.within_univ _ s.cache).sound h

theorem discover_view : (s.discover loader).cache.view = s.cache.view :=
  (stageExternals_stages loader.within_univ _ s.cache).view h

/-- A cycle that failed leaves the committed part of the cache as it was. -/
theorem fails_view (compilerState : σ) : (s.fails loader compilerState).cache.view =
    s.cache.view := by
  have hd := discover_sound loader h
  unfold fails
  dsimp only
  rw [hd.rollback_commit, hd.view_undo_commit]
  exact discover_view loader h

theorem fails_sound (compilerState : σ) : (s.fails loader compilerState).cache.Sound :=
  (discover_sound loader h).commit.rollback

theorem reset_sound (compiler : Compiler σ) (outlets : Outlets ο) (o : ο) :
    (s.reset compiler loader outlets o).2.1.cache.Sound := by
  rcases reset_cases compiler loader outlets s o with ⟨output, o', _, heq⟩ | ⟨e, o', heq⟩
  · rw [heq]
    exact (discover_sound loader h).commit
  · rw [heq]
    exact fails_sound loader h _

theorem fails_staged (compilerState : σ) :
    (s.fails loader compilerState).cache.stagedFiles = [] := by
  unfold fails
  dsimp only
  rw [(discover_sound loader h).rollback_commit]
  exact Cache.stagedFiles_undo _ _

end

theorem Reached.sound {compilers : Set (Compiler σ)} {contents : Set Text}
    {config : BuildConfiguration} {initial : σ} {s : Session σ} {T : List (Path × Text)}
    (h : Reached compilers contents config initial s T) : s.cache.Sound := by
  induction h with
  | new => exact Cache.empty_sound
  | addSource _ p _ ih => exact ih.stage p _
  | @loadSources s _ _ loader _ ih => exact (loadSources_stages loader s).sound ih
  | prune _ ih => exact ih.prune _
  | @reset _ _ _ _ compiler _ loader _ outlets o ih =>
    exact reset_sound loader ih compiler outlets o

/-! ## A small session -/

/-- One cycle with one file is complete, and another content of the file is staged. -/
def sample : Session Memo :=
  let config := BuildConfiguration.of "/p/project.json" .empty .initial
  let first := ((Session.new config Memo.empty).addSource "/p/a.ts" "let a = 1;".toList).2
  let cycled := (first.reset PassThrough.compiler .empty (.pair Shelf.outlet Shelf.outlet)
    (.empty, .empty)).2.1
  (cycled.addSource "/p/a.ts" "let a = 2;".toList).2

/-- What the small session has staged. -/
def sampleSources : List (Path × Text) := [("/p/a.ts", "let a = 2;".toList)]

/-- The contents that occur in the small session. -/
def sampleContents : Set Text := {"let a = 1;".toList, "let a = 2;".toList}

theorem sampleContents_injOn : Set.InjOn ContentHash.ofText sampleContents := by
  have hne : ContentHash.ofText "let a = 1;".toList ≠ ContentHash.ofText "let a = 2;".toList := by
    decide +kernel
  rintro a (rfl | rfl) b (rfl | rfl) hab
  · rfl
  · exact absurd hab hne
  · exact absurd hab.symm hne
  · rfl

theorem sample_reached : Reached PassThrough.compilers sampleContents sample.config Memo.empty
    sample sampleSources := by
  have hloader := Loader.empty_within sampleContents
  have hfirst : "let a = 1;".toList ∈ sampleContents := Or.inl rfl
  have hsecond : "let a = 2;".toList ∈ sampleContents := Or.inr rfl
  exact ((Reached.new.addSource "/p/a.ts" hfirst).reset PassThrough.compiler_mem hloader _
    _).addSource "/p/a.ts" hsecond

end Session

end IncrementalBuild
