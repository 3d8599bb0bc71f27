import IncrementalBuild.Proofs.ChangeHistory
import IncrementalBuild.Proofs.PlannedSessions
/-!
# Trying again after a failed reset

A reset that fails leaves files behind: those that a discovery found keep their ids, and the
compiler keeps what it remembers. Staging the same sources again and resetting gives exactly what
the first reset would have given if it had come through, down to the ids of the files and the
change set. The same holds after any number of failures.
-/
namespace IncrementalBuild

/-! ## The same ids -/

theorem CompileResult.rename_id (r : CompileResult) : r.rename id = r := by
  unfold rename
  rw [show Diagnostic.rename id = id from funext Diagnostic.rename_id, List.map_id]

theorem ReferenceCycle.rename_id (c : ReferenceCycle) : c.rename id = c := by
  show (⟨c.members.map id, c.references.map id⟩ : ReferenceCycle) = c
  rw [List.map_id, List.map_id]

theorem Diagnostic.sort_congr {c c' : Cache} (h : ∀ id, c'.position? id = c.position? id)
    (ds : List Diagnostic) : sort c' ds = sort c ds := by
  have hkey : ∀ d : Diagnostic, d.sortKey c' = d.sortKey c := by
    intro d
    unfold sortKey
    rw [h]
  unfold sort
  simp only [hkey]

namespace Cache

/-- A cache that keeps the names of another has the same ids for its paths. -/
theorem Names.match_id {c c' : Cache} (hc' : c'.Sound) (h : c.Names c') : c.Match id c' := by
  intro e he e' he' hp
  obtain ⟨x, hx, hid, hxp⟩ := h e he
  rw [id, ← hid, hc'.eq_of_path hx he' (hxp.trans hp)]

namespace SameCycle

variable {c c' : Cache} (h : SameCycle id c c')
include h

theorem assembly_eq (config : BuildConfiguration) (r : CompileResult) :
    Assembly.new c' config r = Assembly.new c config r := by
  have hartifacts := h.assembly_artifacts config r
  have hcycles : (Assembly.orderOf c' config).cycles = (Assembly.orderOf c config).cycles := by
    rw [h.orderOf config]
    show (Assembly.orderOf c config).cycles.map (ReferenceCycle.rename id) = _
    rw [show ReferenceCycle.rename id = id from funext ReferenceCycle.rename_id, List.map_id]
  rw [r.rename_id] at hartifacts
  unfold Assembly.new at hartifacts ⊢
  dsimp only at hartifacts ⊢
  rw [hartifacts, hcycles]

theorem sort_eq (ds : List Diagnostic) : Diagnostic.sort c' ds = Diagnostic.sort c ds := by
  have hmembers := h.members
  rw [List.map_id] at hmembers
  refine Diagnostic.sort_congr (fun id => ?_) ds
  rw [h.sound.position?_eq, h.sound'.position?_eq, hmembers]

end SameCycle

end Cache

namespace Session

/-- The same is delivered from caches with the same cycle under the same ids. -/
theorem deliver_congr {ο : Type} {c c' : Cache} (h : Cache.SameCycle id c c') (outlets : Outlets ο)
    (config : BuildConfiguration) (changes : ChangeSet) {found found' : DiagnosticLog}
    (hfound : found'.held = found.held) (result : Except CompileError CompileResult) (o : ο) :
    deliver outlets config c' changes found' result o =
      deliver outlets config c changes found result o := by
  unfold deliver
  cases result with
  | error e => rfl
  | ok r =>
    dsimp only
    rw [h.assembly_eq config r, DiagnosticLog.extend_held, DiagnosticLog.extend_held, hfound,
      h.sort_eq]

/-! ## Failed attempts -/

/-- The sessions that failed resets lead to, when the same sources are staged again after each of
them. A reset fails because its compiler does, or because an output does not come through. -/
inductive Retried (loader : Loader) (T : List (Path × Text)) (s : Session Memo) :
    Session Memo → Prop
  | start : Retried loader T s s
  | retry {r r' : Session Memo} (h : Retried loader T s r) {ο : Type} {compiler : Compiler Memo}
    (hcompiler : compiler ∈ PassThrough.compilers) {outlets : Outlets ο} {o o' : ο}
    {e : SessionError} (hfail : r.reset compiler loader outlets o = (.error e, r', o')) :
    Retried loader T s (r'.addSources T)

/-- What failed attempts leave as it was: the configuration, the plan and the committed part of
the cache. The names that the first attempt gave stay, if there was one. -/
structure Ready (contents : Set Text) (loader : Loader) (T : List (Path × Text))
    (s r : Session Memo) : Prop where
  config : r.config = s.config
  planned : r.Planned contents T
  view : r.cache.view = s.cache.view
  names : r = s ∨ (s.discover loader).cache.Names r.cache

section
variable {contents : Set Text} (hinj : Set.InjOn ContentHash.ofText contents)
  {loader : Loader} (hloader : loader.Within contents) {T : List (Path × Text)}
  {s r : Session Memo}

/-- A file that was found in an attempt keeps its id when the attempt fails. -/
theorem names_discover_fails (h : r.cache.Sound) (state : Memo) :
    (r.discover loader).cache.Names (r.fails loader state).cache := by
  have hd := discover_sound loader h
  exact hd.names_commit.trans hd.commit.names_rollback

include hloader in
theorem names_discover (h : r.cache.Sound) : r.cache.Names (r.discover loader).cache :=
  (stageExternals_stages hloader _ r.cache).names h

include hinj hloader

theorem Ready.retry (hT : ∀ source ∈ T, source.2 ∈ contents) (h : Ready contents loader T s r)
    {compiler : Compiler Memo} (hc : compiler ∈ PassThrough.compilers) :
    Ready contents loader T s
      ((r.fails loader (r.compiled compiler loader).2).addSources T) := by
  have hfails := h.planned.fails hc hloader
  have hstages := stageAll_stages hT (r.fails loader (r.compiled compiler loader).2).cache
  have hnames := (names_discover_fails h.planned.sound (r.compiled compiler loader).2).trans
    (hstages.names hfails.sound)
  refine ⟨?_, hfails.addSources hinj hT, ?_, Or.inr ?_⟩
  · rw [addSources_eq]
    exact h.config
  · rw [addSources_eq]
    calc (stageAll (r.fails loader (r.compiled compiler loader).2).cache T).view
        = (r.fails loader (r.compiled compiler loader).2).cache.view := hstages.view hfails.sound
      _ = r.cache.view := fails_view loader h.planned.sound _
      _ = s.cache.view := h.view
  · rw [addSources_eq]
    rcases h.names with rfl | hprior
    · exact hnames
    · exact hprior.trans ((names_discover hloader h.planned.sound).trans hnames)

theorem Retried.ready (hT : ∀ source ∈ T, source.2 ∈ contents) (hs : s.Planned contents T)
    (h : Retried loader T s r) : Ready contents loader T s r := by
  induction h with
  | start => exact ⟨rfl, hs, rfl, Or.inl rfl⟩
  | @retry r r' _ _ compiler hcompiler outlets o o' e hfail ih =>
    rcases reset_cases compiler loader outlets r o with ⟨output, o₁, _, heq⟩ | ⟨e₁, o₁, heq⟩
    · rw [heq] at hfail
      cases hfail
    · rw [heq] at hfail
      cases hfail
      exact ih.retry hinj hloader hT hcompiler

/-- What a reset delivers does not depend on the attempts before it. -/
theorem Ready.delivered_eq {ο : Type} (hs : s.Planned contents T)
    (h : Ready contents loader T s r) (outlets : Outlets ο) (o : ο) :
    r.delivered PassThrough.compiler loader outlets o =
      s.delivered PassThrough.compiler loader outlets o := by
  have hd := discover_sound loader hs.sound
  have hd' := discover_sound loader h.planned.sound
  -- a file that an attempt found keeps its id, so both discoveries end with the same ids
  have hmatch : (s.discover loader).cache.Match id (r.discover loader).cache := by
    rcases h.names with rfl | hnames
    · exact (Cache.Names.refl _).match_id hd
    · exact (hnames.trans (names_discover hloader h.planned.sound)).match_id hd'
  have hdiscover := hs.discover_twins hinj hloader h.planned h.config hmatch
  have hcycle := hdiscover.toTwins.commit hmatch
  have hview : (r.discover loader).cache.view = (s.discover loader).cache.view :=
    calc (r.discover loader).cache.view = r.cache.view := discover_view loader h.planned.sound
      _ = s.cache.view := h.view
      _ = (s.discover loader).cache.view := (discover_view loader hs.sound).symm
  -- the change set is decided by the committed part and by what is staged
  have hmention : (r.discover loader).cache.stagedFiles.map SourceFile.mention =
      (s.discover loader).cache.stagedFiles.map SourceFile.mention := by
    have hbare := congrArg (List.map SourceFile.mention) (hdiscover.toTwins.stagedFiles hmatch)
    rw [List.map_map, List.map_map] at hbare
    exact hbare
  have hchanges := hd.changes_eq hd'.toWellFormed hview hmention
  have hlog : (r.discover loader).log.held = (s.discover loader).log.held := by
    rw [hdiscover.log, show Diagnostic.rename id = id from funext Diagnostic.rename_id,
      List.map_id]
  have hresult : (r.compiled PassThrough.compiler loader).1 =
      (s.compiled PassThrough.compiler loader).1 := by
    rw [hs.compiled_rename hinj hloader h.planned h.config hcycle,
      show CompileResult.rename id = id from funext CompileResult.rename_id]
    cases (s.compiled PassThrough.compiler loader).1 <;> rfl
  unfold delivered
  rw [h.config, hchanges, hresult]
  exact deliver_congr hcycle outlets s.config _ hlog _ o

end

/-- After any number of failed resets, with the same sources staged again after each of them, a
reset gives the result and leaves the outlets in the state that a reset would have without the
failures. -/
theorem reset_after_failures {contents : Set Text}
    (hinj : Set.InjOn ContentHash.ofText contents) {config : BuildConfiguration}
    {s r : Session Memo} {T : List (Path × Text)}
    (hs : Reached PassThrough.compilers contents config Memo.empty s T) {loader : Loader}
    (hloader : loader.Within contents) (hr : Retried loader T s r) {ο : Type}
    (outlets : Outlets ο) (o : ο) :
    (r.reset PassThrough.compiler loader outlets o).1 =
        (s.reset PassThrough.compiler loader outlets o).1 ∧
      (r.reset PassThrough.compiler loader outlets o).2.2 =
        (s.reset PassThrough.compiler loader outlets o).2.2 := by
  have hready := hr.ready hinj hloader hs.sources_within (hs.planned hinj)
  have hdelivered := hready.delivered_eq hinj hloader (hs.planned hinj) outlets o
  rw [← reset_delivers, ← reset_delivers, Prod.mk.injEq] at hdelivered
  exact hdelivered

theorem reset_after_failures_of_sample : ∃ e s' o',
    sample.reset (PassThrough.compiler.failing "out of memory".toList) .empty
      (.pair Shelf.outlet Shelf.outlet) (.empty, .empty) = (.error e, s', o') ∧
    ((s'.addSources sampleSources).reset PassThrough.compiler .empty
      (.pair Shelf.outlet Shelf.outlet) (.empty, .empty)).1 =
      (sample.reset PassThrough.compiler .empty (.pair Shelf.outlet Shelf.outlet)
        (.empty, .empty)).1 ∧
    ((s'.addSources sampleSources).reset PassThrough.compiler .empty
      (.pair Shelf.outlet Shelf.outlet) (.empty, .empty)).2.2 =
      (sample.reset PassThrough.compiler .empty (.pair Shelf.outlet Shelf.outlet)
        (.empty, .empty)).2.2 := by
  have hfail : sample.reset (PassThrough.compiler.failing "out of memory".toList) .empty
      (.pair Shelf.outlet Shelf.outlet) (.empty, .empty) = _ := reset_failing ..
  have hretried := Retried.start.retry (T := sampleSources) (PassThrough.failing_mem _) hfail
  exact ⟨_, _, _, hfail, reset_after_failures sampleContents_injOn sample_reached
    (Loader.empty_within sampleContents) hretried _ _⟩

end Session

end IncrementalBuild
