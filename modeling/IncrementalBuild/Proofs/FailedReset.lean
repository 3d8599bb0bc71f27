import IncrementalBuild.Proofs.GraphRenaming
import IncrementalBuild.Proofs.PassThroughMemo
import IncrementalBuild.Proofs.SessionRuns
/-!
# Resets that fail

A reset that fails, for whatever reason, leaves every completed cycle as it was: the outputs, the
stage of the session, everything the cache shows of its committed cycle, and the report of that
cycle. Nothing is staged afterwards.

The report needs to know one thing of the compilers: they report about the files they are shown.
A diagnostic about any other file could change its place with what is staged.
-/
namespace IncrementalBuild

/-! ## Reports about the files of a cycle -/

/-- A diagnostic has no place, or a place in one of these files, and so have its labels. -/
structure Diagnostic.PointsInto (d : Diagnostic) (ids : List FileId) : Prop where
  span : d.span.isDummy = true ∨ d.span.file ∈ ids
  labels : ∀ l ∈ d.labels, l.span.file ∈ ids

theorem Diagnostic.About.pointsInto {d : Diagnostic} {id : FileId} (h : d.About id)
    {ids : List FileId} (hid : id ∈ ids) : d.PointsInto ids := by
  refine ⟨Or.inr (h.span.symm ▸ hid), fun l hl => ?_⟩
  rw [h.labels] at hl
  exact absurd hl List.not_mem_nil

/-- Caches with the same files under some ids show diagnostics about these files alike. -/
theorem Diagnostic.report_congr {c c' : Cache} {ids : List FileId}
    (hfiles : ∀ id ∈ ids, c'.file? id = c.file? id) {ds : List Diagnostic}
    (hds : ∀ d ∈ ds, d.PointsInto ids) (color : Bool) : report color c' ds = report color c ds := by
  have hplace : ∀ d ∈ ds, d.place c' = d.place c := by
    intro d hd
    unfold place
    rcases (hds d hd).span with hspan | hspan
    · rw [if_pos hspan, if_pos hspan]
    · rw [hfiles _ hspan]
  have hlabels : ∀ d ∈ ds, ∀ l ∈ d.labels, labelText c' l = labelText c l := by
    intro d hd l hl
    unfold labelText Cache.locate?
    rw [hfiles _ ((hds d hd).labels l hl)]
  have hrender : ∀ d ∈ ds, d.render color c' ++ "\n".toList = d.render color c ++ "\n".toList := by
    intro d hd
    have hsecondary : (d.labels.filter (·.style = .secondary)).flatMap (labelText c') =
        (d.labels.filter (·.style = .secondary)).flatMap (labelText c) :=
      List.flatMap_congr fun l hl => hlabels d hd l (List.mem_filter.mp hl).1
    unfold render
    rw [hplace d hd, hsecondary]
  exact List.flatMap_congr hrender

/-- What a compiler keeps true of its state so that it reports only about files of the cycle that
it is shown. -/
structure Compiler.Honest {σ : Type} (good : σ → Prop) (c : Compiler σ) : Prop where
  keeps : ∀ (config : BuildConfiguration) (sources : Cache) (changes : ChangeSet) (state : σ),
    sources.Sound → good state → good (c.compile config sources changes state).2
  points : ∀ (config : BuildConfiguration) (sources : Cache) (changes : ChangeSet) (state : σ)
    (result : CompileResult), sources.Sound → good state →
    (c.compile config sources changes state).1 = .ok result →
    ∀ d ∈ result.diagnostics, d.PointsInto sources.members

theorem Compiler.failing_honest {σ : Type} {good : σ → Prop} (c : Compiler σ) (message : Text) :
    (c.failing message).Honest good :=
  ⟨fun _ _ _ _ _ h => h, fun _ _ _ _ _ _ _ h => by cases h⟩

theorem PassThrough.honest : PassThrough.compiler.Honest (Memo.Valid Set.univ) := by
  refine ⟨fun config sources changes m h hm => ?_,
    fun config sources changes m r h hm hr d hd => ?_⟩
  · exact compile_valid (fun f hf => h.files_made hf) (fun _ _ => Set.mem_univ _) config changes hm
  · obtain ⟨f, hf, habout⟩ := compile_about (fun f hf => h.files_made hf)
      (fun _ _ => Set.mem_univ _) config changes hm hr d hd
    exact habout.pointsInto (h.files_id ▸ List.mem_map_of_mem hf)

theorem PassThrough.compilers_honest : ∀ c ∈ compilers, c.Honest (Memo.Valid Set.univ) := by
  rintro c (rfl | ⟨message, rfl⟩)
  · exact honest
  · exact compiler.failing_honest message

/-! ## Diagnostics of an assembly -/

theorem Assembly.orderOf_cycles {sources : Cache} {config : BuildConfiguration}
    {c : ReferenceCycle} (hc : c ∈ (orderOf sources config).cycles) :
    c ∈ (ReferenceGraph.ofFiles sources.files).cycles := by
  unfold orderOf at hc
  split at hc
  · rwa [ReferenceGraph.order_cycles] at hc
  · exact absurd hc List.not_mem_nil

/-- The references of a reported cycle are in files of the cycle that is built. -/
theorem Assembly.cycles_file {sources : Cache} (h : sources.Sound) {config : BuildConfiguration}
    {c : ReferenceCycle} (hc : c ∈ (orderOf sources config).cycles) {s : CycleStep}
    (hs : s ∈ c.members ++ c.references) : s.reference.file ∈ sources.members := by
  obtain ⟨f, hf, r, hr, hspan⟩ := ReferenceGraph.cycles_span (orderOf_cycles hc) hs
  rw [← hspan, (h.files_made hf).reference_file hr, ← h.files_id]
  exact List.mem_map_of_mem hf

theorem ReferenceCycle.diagnostic_pointsInto {c : ReferenceCycle} {ids : List FileId}
    (h : ∀ s ∈ c.members ++ c.references, s.reference.file ∈ ids) :
    c.diagnostic.PointsInto ids := by
  have hmembers : ∀ s ∈ c.members, s.reference.file ∈ ids := fun s hs =>
    h s (List.mem_append_left _ hs)
  have hreferences : ∀ s ∈ c.references, s.reference.file ∈ ids := fun s hs =>
    h s (List.mem_append_right _ hs)
  refine ⟨?_, fun l hl => ?_⟩
  · unfold diagnostic
    cases hfirst : c.members.head? with
    | none => exact Or.inl rfl
    | some s => exact Or.inr (hmembers s (List.mem_of_head? hfirst))
  · rcases List.mem_append.mp hl with hl | hl
    · rw [Option.mem_toList, Option.map_eq_some_iff] at hl
      obtain ⟨s, hs, rfl⟩ := hl
      exact hmembers s (List.mem_of_head? hs)
    · obtain ⟨s, hs, rfl⟩ := List.mem_map.mp hl
      have hs := (List.mem_filter.mp hs).1
      split at hs
      · exact hmembers s hs
      · exact hreferences s hs

namespace Session

variable {σ ο : Type}

theorem delivered_pointsInto {compiler : Compiler σ} {good : σ → Prop}
    (hgood : compiler.Honest good) {loader : Loader} {outlets : Outlets ο} {s : Session σ}
    {o o' : ο} {output : CycleOutput} (h : s.cache.Sound) (hstate : good s.compilerState)
    (hb : s.delivered compiler loader outlets o = (.ok output, o')) :
    ∀ d ∈ output.diagnostics, d.PointsInto (s.discover loader).cache.commit.members := by
  obtain ⟨result, stats, hresult, _, rfl⟩ := deliver_ok hb
  have hd := discover_sound loader h
  intro d hin
  have hin := (List.mergeSort_perm _ _).mem_iff.mp hin
  rw [DiagnosticLog.extend_held] at hin
  rcases List.mem_append.mp hin with hin | hin
  · obtain ⟨id, hid, habout⟩ := stageExternals_located loader.within_univ _ h d hin
    exact habout.pointsInto hid
  · rcases List.mem_append.mp hin with hin | hin
    · exact hgood.points _ _ _ _ _ hd.commit hstate hresult d hin
    · obtain ⟨c, hc, rfl⟩ := List.mem_map.mp hin
      exact ReferenceCycle.diagnostic_pointsInto fun s hs => Assembly.cycles_file hd.commit hc hs

/-! ## The report of a session -/

/-- The diagnostics of the last completed cycle are about the files of that cycle. -/
def Reports (s : Session σ) : Prop :=
  ∀ output, s.current = some output → ∀ d ∈ output.diagnostics, d.PointsInto s.cache.members

theorem Reports.of_view {s s' : Session σ} (h : s.Reports) (hcurrent : s'.current = s.current)
    (hv : s'.cache.view = s.cache.view) : s'.Reports := by
  have hmembers : s'.cache.members = s.cache.members := congrArg CommittedView.members hv
  intro output ho
  rw [hmembers]
  exact h output (hcurrent.symm.trans ho)

/-- Sessions with the same current output and the same committed cycle report alike. -/
theorem Reports.report_eq {s s' : Session σ} (h : s.Reports) (hs : s.cache.Sound)
    (hs' : s'.cache.Sound) (hcurrent : s'.current = s.current)
    (hv : s'.cache.view = s.cache.view) (color : Bool) : s'.report color = s.report color := by
  have hmembers : s'.cache.members = s.cache.members := congrArg CommittedView.members hv
  unfold report
  rw [hcurrent]
  cases ho : s.current with
  | none => rfl
  | some output =>
    refine Diagnostic.report_congr (fun id hid => ?_) (h output ho) color
    rw [hs.file?_of_member hid, hs'.file?_of_member (hmembers ▸ hid), hv]

/-- A prune keeps the committed cycle, whose files are those that it is told to keep. -/
theorem prune_files {s : Session σ} (h : s.cache.Sound) :
    s.prune.2.cache.files = s.cache.files := by
  show (s.cache.prune _).2.files = _
  rw [h.files_prune, List.filter_eq_self]
  intro f hf
  exact List.any_eq_true.mpr ⟨f.path, List.mem_map_of_mem hf, beq_self_eq_true _⟩

theorem prune_members {s : Session σ} (h : s.cache.Sound) :
    s.prune.2.cache.members = s.cache.members := by
  have hprune : s.prune.2.cache.Sound := h.prune _
  rw [← hprune.files_id, prune_files h, h.files_id]

section
variable {compilers : Set (Compiler σ)} {contents : Set Text} {config : BuildConfiguration}
  {initial : σ} {s : Session σ} {T : List (Path × Text)}

theorem Reached.reports (h : Reached compilers contents config initial s T) {good : σ → Prop}
    (hinitial : good initial) (hgood : ∀ c ∈ compilers, c.Honest good) :
    good s.compilerState ∧ s.Reports := by
  induction h with
  | new => exact ⟨hinitial, fun _ ho => by cases ho⟩
  | addSource h p _ ih => exact ⟨ih.1, ih.2.of_view rfl (h.sound.view_stage p _)⟩
  | @loadSources s _ h loader hloader ih =>
    rw [loadSources_eq]
    have hv := (stageAll_stages (loadable_within hloader s) s.cache).view h.sound
    exact ⟨ih.1, ih.2.of_view rfl hv⟩
  | prune h ih =>
    refine ⟨ih.1, fun output ho => ?_⟩
    rw [prune_members h.sound]
    exact ih.2 output ho
  | @reset s _ h _ compiler hcompiler loader _ outlets o ih =>
    have hstate : good (s.compiled compiler loader).2 :=
      (hgood compiler hcompiler).keeps _ _ _ _ (discover_sound loader h.sound).commit ih.1
    rcases reset_cases compiler loader outlets s o with ⟨output, o', hb, heq⟩ | ⟨e, o', heq⟩
    · rw [heq]
      refine ⟨hstate, fun output' ho => ?_⟩
      cases ho
      exact delivered_pointsInto (hgood compiler hcompiler) h.sound ih.1 hb
    · rw [heq]
      exact ⟨hstate, ih.2.of_view rfl (fails_view loader h.sound _)⟩

/-- A reset that fails keeps the outputs and the stage of the session and everything that the
cache shows of the committed cycle, and leaves nothing staged. If the compilers report only about
the files they are shown, it keeps the report too. -/
theorem reset_error_keeps_cycles (h : Reached compilers contents config initial s T)
    {compiler : Compiler σ} {loader : Loader} {outlets : Outlets ο} {o o' : ο} {e : SessionError}
    {s' : Session σ} (herror : s.reset compiler loader outlets o = (.error e, s', o')) :
    s'.current = s.current ∧ s'.previous = s.previous ∧ s'.stage = s.stage ∧
      s.cache.ShowsSame s'.cache ∧ s'.cache.stagedFiles = [] ∧
      (∀ p, s'.cache.isStaged p = false) ∧
      ∀ good : σ → Prop, good initial → (∀ c ∈ compilers, c.Honest good) →
        ∀ color, s'.report color = s.report color := by
  rcases reset_cases compiler loader outlets s o with ⟨output, o'', _, heq⟩ | ⟨e', o'', heq⟩
  · rw [heq] at herror
    cases herror
  · rw [heq] at herror
    cases herror
    have hsound := fails_sound loader h.sound (s.compiled compiler loader).2
    have hview := fails_view loader h.sound (s.compiled compiler loader).2
    have hstaged := fails_staged loader h.sound (s.compiled compiler loader).2
    refine ⟨rfl, rfl, rfl, Cache.showsSame_of_view h.sound.toWellFormed hsound.toWellFormed hview,
      hstaged, fun p => ?_, fun good hinitial hgood color => ?_⟩
    · rw [← Bool.not_eq_true, hsound.isStaged_iff, hstaged]
      exact List.not_mem_nil
    · exact (h.reports hinitial hgood).2.report_eq h.sound hsound rfl hview color

end

theorem failing_compiler_keeps_sample : ∃ e s' o',
    sample.reset (PassThrough.compiler.failing "out of memory".toList) .empty
      (.pair Shelf.outlet Shelf.outlet) (.empty, .empty) = (.error e, s', o') ∧
    s'.current = sample.current ∧ s'.previous = sample.previous ∧ s'.stage = sample.stage ∧
    sample.cache.ShowsSame s'.cache ∧ s'.cache.stagedFiles = [] ∧
    (∀ p, s'.cache.isStaged p = false) ∧ ∀ color, s'.report color = sample.report color := by
  have herror : sample.reset (PassThrough.compiler.failing "out of memory".toList) .empty
      (.pair Shelf.outlet Shelf.outlet) (.empty, .empty) = _ := reset_failing ..
  obtain ⟨hcurrent, hprevious, hstage, hshows, hstaged, hnone, hreport⟩ :=
    reset_error_keeps_cycles sample_reached herror
  refine ⟨_, _, _, herror, hcurrent, hprevious, hstage, hshows, hstaged, hnone, ?_⟩
  exact hreport (Memo.Valid Set.univ) Memo.empty_valid PassThrough.compilers_honest

/-! ## Reports about other files -/

/-- A compiler that warns about the second file that was ever staged, whatever it is shown. -/
def straying : Compiler Unit where
  name := "straying".toList
  compile _ _ _ _ :=
    (.ok ⟨[], [.warning .conflictMarker "here".toList ⟨1, 0, 1⟩]⟩, ())

/-- One cycle of that compiler with one file is complete, and a content that refers to another file
is staged. -/
def strayed : Session Unit :=
  let config := BuildConfiguration.of "/p/project.json" .empty .initial
  let first := ((Session.new config ()).addSource "/p/a.ts" "let a;".toList).2
  let cycled := (first.reset straying .empty (.pair Shelf.outlet Shelf.outlet)
    (.empty, .empty)).2.1
  (cycled.addSource "/p/a.ts" "/// <reference path=\"b.ts\" />\n".toList).2

theorem strayed_reached : Reached Set.univ Set.univ strayed.config () strayed
    [("/p/a.ts", "/// <reference path=\"b.ts\" />\n".toList)] :=
  (Reached.new.addSource "/p/a.ts" (Set.mem_univ _)).reset (Set.mem_univ straying)
    Loader.empty.within_univ (.pair Shelf.outlet Shelf.outlet) (.empty, .empty)
    |>.addSource "/p/a.ts" (Set.mem_univ _)

/-- A compiler that warns about a file it was not shown can have its report changed by a reset that
fails: the file that the discovery stages is still found under its id afterwards. -/
theorem failing_reset_changes_report : ∃ e s' o',
    strayed.reset (straying.failing "out of memory".toList)
      (Loader.empty.insert "/p/b.ts" "let b;".toList) (.pair Shelf.outlet Shelf.outlet)
      (.empty, .empty) = (.error e, s', o') ∧
    Reached Set.univ Set.univ strayed.config () strayed
      [("/p/a.ts", "/// <reference path=\"b.ts\" />\n".toList)] ∧
    strayed.report false = "warning[C001]: here\n\n".toList ∧
    s'.report false =
      "warning[C001]: here\n  --> /p/b.ts:1:1\n  |\n1 | let b;\n  | ^\n\n".toList := by
  refine ⟨_, _, _, reset_failing .., strayed_reached, ?_, ?_⟩
  · decide +kernel
  · decide +kernel

end Session

end IncrementalBuild
