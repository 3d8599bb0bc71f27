import IncrementalBuild.Proofs.SameCycle
/-!
# Sessions of the pass-through compiler

What a run of a session with the pass-through compiler keeps true: the plan of the cache is what
was staged since the last reset, and the memory of the compiler is valid. So what the compiler
gives for the next cycle depends on the files of that cycle alone, and sessions with the same plan
get the same for it, but for the ids.
-/
namespace IncrementalBuild

theorem Cache.Within.files {contents : Set Text} {c : Cache} (h : c.WellFormed)
    (hw : c.Within contents) {f : SourceFile} (hf : f ∈ c.files) : f.content ∈ contents := by
  obtain ⟨e, he, _, rfl⟩ := h.mem_files.mp hf
  exact (hw.entries e he).1

namespace Session

def addSources {σ : Type} (s : Session σ) (sources : List (Path × Text)) : Session σ :=
  sources.foldl (fun s source => (s.addSource source.1 source.2).2) s

theorem addSources_eq {σ : Type} (s : Session σ) (sources : List (Path × Text)) :
    s.addSources sources = { s with cache := stageAll s.cache sources } := by
  induction sources generalizing s with
  | nil => rfl
  | cons source sources ih => exact ih _

theorem plan_stageAll {contents : Set Text} (hinj : Set.InjOn ContentHash.ofText contents)
    {sources : List (Path × Text)} (hsources : ∀ source ∈ sources, source.2 ∈ contents)
    {c : Cache} (h : c.Sound) (hw : c.Within contents) :
    (stageAll c sources).plan = Cache.extend c.plan sources := by
  induction sources generalizing c with
  | nil => rfl
  | cons source sources ih =>
    have hcontent := hsources source List.mem_cons_self
    have htail := ih (fun x hx => hsources x (List.mem_cons_of_mem source hx))
      (h.stage source.1 source.2) (Cache.Within.stage h.toWellFormed hw source.1 hcontent)
    rw [Cache.plan_stage hinj h hw source.1 hcontent] at htail
    exact htail

theorem discover_within {σ : Type} {s : Session σ} {contents : Set Text} (h : s.cache.Sound)
    (hw : s.cache.Within contents) {loader : Loader} (hloader : loader.Within contents) :
    (s.discover loader).cache.Within contents :=
  (stageExternals_stages hloader _ s.cache).within h hw

theorem compiled_valid {s : Session Memo} {contents : Set Text} (h : s.cache.Sound)
    (hw : s.cache.Within contents) (hm : s.compilerState.Valid contents)
    {compiler : Compiler Memo} (hc : compiler ∈ PassThrough.compilers) {loader : Loader}
    (hloader : loader.Within contents) : (s.compiled compiler loader).2.Valid contents := by
  have hd := (discover_sound loader h).commit
  have hw := (discover_within h hw hloader).commit (discover_sound loader h).toWellFormed
  rcases hc with rfl | ⟨message, rfl⟩
  · exact PassThrough.compile_valid (fun f hf => hd.files_made hf)
      (fun f hf => hw.files hd.toWellFormed hf) _ _ hm
  · exact hm

theorem Reached.within {σ : Type} {compilers : Set (Compiler σ)} {contents : Set Text}
    {config : BuildConfiguration} {initial : σ} {s : Session σ} {T : List (Path × Text)}
    (h : Reached compilers contents config initial s T) : s.cache.Within contents := by
  induction h with
  | new => exact Cache.empty_within contents
  | addSource h p hcontent ih => exact ih.stage h.sound.toWellFormed p hcontent
  | @loadSources s _ h loader hloader ih =>
    rw [loadSources_eq]
    exact (stageAll_stages (loadable_within hloader s) s.cache).within h.sound ih
  | prune h ih => exact ih.prune h.sound.toWellFormed _
  | @reset s _ h _ compiler _ loader hloader outlets o ih =>
    have hd := discover_sound loader h.sound
    have hw := (discover_within h.sound ih hloader).commit hd.toWellFormed
    rcases reset_cases compiler loader outlets s o with ⟨output, o', _, heq⟩ | ⟨e, o', heq⟩
    · rw [heq]
      exact hw
    · rw [heq]
      exact hw.rollback hd.commit.toWellFormed

theorem Reached.memo_valid {contents : Set Text} {config : BuildConfiguration} {s : Session Memo}
    {T : List (Path × Text)} (h : Reached PassThrough.compilers contents config Memo.empty s T) :
    s.compilerState.Valid contents := by
  induction h with
  | new => exact Memo.empty_valid
  | addSource _ _ _ ih => exact ih
  | @loadSources s _ _ loader _ ih =>
    rw [loadSources_eq]
    exact ih
  | prune _ ih => exact ih
  | @reset s _ h _ compiler hcompiler loader hloader outlets o ih =>
    have hvalid := compiled_valid h.sound h.within ih hcompiler hloader
    rcases reset_cases compiler loader outlets s o with ⟨output, o', _, heq⟩ | ⟨e, o', heq⟩
    · rw [heq]
      exact hvalid
    · rw [heq]
      exact hvalid

/-- The invariant of a session of the pass-through compiler that has staged sources. -/
structure Planned (contents : Set Text) (s : Session Memo) (sources : List (Path × Text)) :
    Prop where
  sound : s.cache.Sound
  within : s.cache.Within contents
  memo : s.compilerState.Valid contents
  plan : s.cache.plan = Cache.extend [] sources

section
variable {contents : Set Text} {s : Session Memo} {T : List (Path × Text)}
  (h : s.Planned contents T)
include h

/-- What the compiler gives is a function of the files of the next cycle. -/
theorem Planned.compiled_eq (hinj : Set.InjOn ContentHash.ofText contents) {loader : Loader}
    (hloader : loader.Within contents) : (s.compiled PassThrough.compiler loader).1 =
      PassThrough.compileFresh s.config (s.discover loader).cache.commit.files := by
  have hd := (discover_sound loader h.sound).commit
  have hw := (discover_within h.sound h.within hloader).commit
    (discover_sound loader h.sound).toWellFormed
  exact PassThrough.compile_eq (fun f hf => hd.files_made hf)
    (fun f hf => hw.files hd.toWellFormed hf) _ _ h.memo hinj

/-- Sessions with the same plan discover the same, but for the ids of the files. -/
theorem Planned.discover_twins (hinj : Set.InjOn ContentHash.ofText contents) {loader : Loader}
    (hloader : loader.Within contents) {s' : Session Memo} (h' : s'.Planned contents T)
    (hconfig : s'.config = s.config) {ρ : FileId → FileId}
    (hmatch : (s.discover loader).cache.Match ρ (s'.discover loader).cache) :
    Discovery.Twins contents ρ (s.discover loader) (s'.discover loader) := by
  have htwins : s.cache.Twins contents s'.cache :=
    ⟨h.sound, h'.sound, h.within, h'.within, h'.plan.trans h.plan.symm⟩
  unfold discover at hmatch ⊢
  rw [hconfig] at hmatch ⊢
  exact htwins.stageExternals hinj hloader _ hmatch

/-- The compiler gives the same for the same cycle, but for the ids. -/
theorem Planned.compiled_rename (hinj : Set.InjOn ContentHash.ofText contents) {loader : Loader}
    (hloader : loader.Within contents) {s' : Session Memo} (h' : s'.Planned contents T)
    (hconfig : s'.config = s.config) {ρ : FileId → FileId}
    (hcycle : Cache.SameCycle ρ (s.discover loader).cache.commit
      (s'.discover loader).cache.commit) :
    (s'.compiled PassThrough.compiler loader).1 =
      (s.compiled PassThrough.compiler loader).1.map (CompileResult.rename ρ) := by
  rw [h'.compiled_eq hinj hloader, h.compiled_eq hinj hloader, hconfig, hcycle.compileFresh]

theorem Planned.addSources (hinj : Set.InjOn ContentHash.ofText contents)
    {sources : List (Path × Text)} (hsources : ∀ source ∈ sources, source.2 ∈ contents) :
    (s.addSources sources).Planned contents (T ++ sources) := by
  rw [addSources_eq]
  have hstages := stageAll_stages hsources s.cache
  refine ⟨hstages.sound h.sound, hstages.within h.sound h.within, h.memo, ?_⟩
  rw [Cache.extend_append, ← h.plan]
  exact plan_stageAll hinj hsources h.sound h.within

theorem Planned.fails {compiler : Compiler Memo} (hc : compiler ∈ PassThrough.compilers)
    {loader : Loader} (hloader : loader.Within contents) :
    (s.fails loader (s.compiled compiler loader).2).Planned contents [] := by
  have hd := discover_sound loader h.sound
  have hw := (discover_within h.sound h.within hloader).commit hd.toWellFormed
  refine ⟨fails_sound loader h.sound _, hw.rollback hd.commit.toWellFormed,
    compiled_valid h.sound h.within h.memo hc hloader, ?_⟩
  unfold Cache.plan
  rw [fails_staged loader h.sound]
  rfl

end

theorem Reached.planned {contents : Set Text} (hinj : Set.InjOn ContentHash.ofText contents)
    {config : BuildConfiguration} {s : Session Memo} {T : List (Path × Text)}
    (h : Reached PassThrough.compilers contents config Memo.empty s T) :
    s.Planned contents T := by
  induction h with
  | new => exact ⟨Cache.empty_sound, Cache.empty_within contents, Memo.empty_valid, rfl⟩
  | @addSource s T _ p content hcontent ih =>
    have hone : ∀ source ∈ [(p, content)], source.2 ∈ contents := by simpa using hcontent
    exact ih.addSources hinj hone
  | @loadSources s _ _ loader hloader ih =>
    have hloaded := ih.addSources hinj (loadable_within hloader s)
    rwa [addSources_eq, ← loadSources_eq] at hloaded
  | @prune s T _ ih =>
    refine ⟨ih.sound.prune _, ih.within.prune ih.sound.toWellFormed _, ih.memo, ?_⟩
    show (s.cache.prune _).2.plan = _
    rw [Cache.plan_prune ih.sound, ih.plan, Cache.filter_extend]
    rfl
  | @reset s _ _ _ compiler hcompiler loader hloader outlets o ih =>
    rcases reset_cases compiler loader outlets s o with ⟨output, o', _, heq⟩ | ⟨e, o', heq⟩
    · rw [heq]
      have hd := discover_sound loader ih.sound
      exact ⟨hd.commit, (discover_within ih.sound ih.within hloader).commit hd.toWellFormed,
        compiled_valid ih.sound ih.within ih.memo hcompiler hloader, rfl⟩
    · rw [heq]
      exact ih.fails hcompiler hloader

theorem Reached.config_eq {σ : Type} {compilers : Set (Compiler σ)} {contents : Set Text}
    {config : BuildConfiguration} {initial : σ} {s : Session σ} {T : List (Path × Text)}
    (h : Reached compilers contents config initial s T) : s.config = config := by
  induction h with
  | new => rfl
  | addSource _ _ _ ih => exact ih
  | @loadSources s _ _ loader _ ih =>
    rw [loadSources_eq]
    exact ih
  | prune _ ih => exact ih
  | @reset s _ _ _ compiler _ loader _ outlets o ih =>
    rcases reset_cases compiler loader outlets s o with ⟨output, o', _, heq⟩ | ⟨e, o', heq⟩
    · rw [heq]
      exact ih
    · rw [heq]
      exact ih

theorem Reached.sources_within {σ : Type} {compilers : Set (Compiler σ)} {contents : Set Text}
    {config : BuildConfiguration} {initial : σ} {s : Session σ} {T : List (Path × Text)}
    (h : Reached compilers contents config initial s T) :
    ∀ source ∈ T, source.2 ∈ contents := by
  induction h with
  | new => exact fun _ hx => absurd hx List.not_mem_nil
  | addSource _ p hcontent ih =>
    intro x hx
    rcases List.mem_append.mp hx with hx | hx
    · exact ih x hx
    · rw [List.mem_singleton.mp hx]
      exact hcontent
  | @loadSources s _ _ loader hloader ih =>
    intro x hx
    rcases List.mem_append.mp hx with hx | hx
    · exact ih x hx
    · exact loadable_within hloader s x hx
  | prune _ ih => exact fun x hx => ih x (List.mem_filter.mp hx).1
  | reset => exact fun _ hx => absurd hx List.not_mem_nil

end Session

end IncrementalBuild
