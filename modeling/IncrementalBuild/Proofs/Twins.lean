import IncrementalBuild.Proofs.DiscoveryRuns
import IncrementalBuild.Proofs.PassThroughMemo
/-!
# Caches with the same plan

Two caches that have the same paths staged with the same contents can differ in everything else:
in the ids of the files, in what is committed, in versions and marks. A discovery does the same to
both, and the files of the next cycle are the same but for their ids.

The ids of the files that a discovery finds are not known before it is over. So what is assumed of
the renaming is said of the caches at the end, and names that stay bring it back to every step.
-/
namespace IncrementalBuild

namespace Cache

/-- Both caches are sound, hold contents of one set, and have the same plan. -/
structure Twins (contents : Set Text) (c c' : Cache) : Prop where
  sound : c.Sound
  sound' : c'.Sound
  within : c.Within contents
  within' : c'.Within contents
  plan : c'.plan = c.plan

/-- A renaming takes the id of a path in one cache to its id in another. -/
def Match (ρ : FileId → FileId) (c c' : Cache) : Prop :=
  ∀ e ∈ c.entries, ∀ e' ∈ c'.entries, e.path = e'.path → e'.id = ρ e.id

theorem Match.mono {ρ : FileId → FileId} {c c' d d' : Cache} (h : d.Match ρ d')
    (hc : c.Names d) (hc' : c'.Names d') : c.Match ρ c' := by
  intro e he e' he' hp
  obtain ⟨x, hx, hid, hxp⟩ := hc e he
  obtain ⟨x', hx', hid', hxp'⟩ := hc' e' he'
  rw [← hid, ← hid']
  exact h x hx x' hx' (hxp.trans (hp.trans hxp'.symm))

namespace Twins

variable {contents : Set Text} {c c' : Cache} (h : Twins contents c c')
include h

theorem isStaged (p : Path) : c'.isStaged p = c.isStaged p := by
  rw [Bool.eq_iff_iff, h.sound.isStaged_iff_plan, h.sound'.isStaged_iff_plan, h.plan]

theorem stage (hinj : Set.InjOn ContentHash.ofText contents) (p : Path) {content : Text}
    (hcontent : content ∈ contents) :
    Twins contents (c.stage p content).2 (c'.stage p content).2 := by
  refine ⟨h.sound.stage p content, h.sound'.stage p content,
    Within.stage h.sound.toWellFormed h.within p hcontent,
    Within.stage h.sound'.toWellFormed h.within' p hcontent, ?_⟩
  rw [plan_stage hinj h.sound h.within p hcontent, plan_stage hinj h.sound' h.within' p hcontent,
    h.plan]

theorem markExternal (p : Path) :
    Twins contents (c.markExternal p).2 (c'.markExternal p).2 := by
  refine ⟨h.sound.markExternal p, h.sound'.markExternal p,
    Within.markExternal h.sound.toWellFormed h.within p,
    Within.markExternal h.sound'.toWellFormed h.within' p, ?_⟩
  rw [plan_markExternal h.sound, plan_markExternal h.sound', h.plan]

variable {ρ : FileId → FileId} (hmatch : c.Match ρ c')
include hmatch

theorem bare_eq {f f' : SourceFile} (hf : f ∈ c.stagedFiles) (hf' : f' ∈ c'.stagedFiles)
    (hp : f'.path = f.path) (hc : f'.content = f.content) : f'.bare = (f.rename ρ).bare := by
  obtain ⟨e, he, _, rfl⟩ := h.sound.mem_stagedFiles.mp hf
  obtain ⟨e', he', _, rfl⟩ := h.sound'.mem_stagedFiles.mp hf'
  obtain ⟨hmade, hid, hpath⟩ := (h.sound.entries e he).next
  obtain ⟨hmade', hid', hpath'⟩ := (h.sound'.entries e' he').next
  have hidρ : e'.next.id = (e.next.rename ρ).id := by
    show _ = ρ e.next.id
    rw [hid, hid']
    exact hmatch e he e' he' (hpath.symm.trans (hp.symm.trans hpath'))
  have hrenamed : (e.next.rename ρ).Made :=
    ⟨hmade.hash, by rw [SourceFile.rename, hmade.references, ← Header.references_rename],
      hmade.lines⟩
  exact hmade'.bare_eq hrenamed hidρ hp hc

theorem stagedFiles : c'.stagedFiles.map SourceFile.bare =
    c.stagedFiles.map fun f => (f.rename ρ).bare := by
  refine map_eq_of_keys h.plan fun f hf f' hf' hk => ?_
  rw [Prod.mk.injEq] at hk
  exact h.bare_eq hmatch hf hf' hk.1 hk.2

theorem stagedFiles_id : c'.stagedFiles.map SourceFile.id =
    (c.stagedFiles.map SourceFile.id).map ρ := by
  rw [List.map_map]
  refine map_eq_of_keys h.plan fun f hf f' hf' hk => ?_
  rw [Prod.mk.injEq] at hk
  exact congrArg SourceFile.id (h.bare_eq hmatch hf hf' hk.1 hk.2)

theorem stagedFile? {id : FileId} {f : SourceFile} (hf : c.stagedFile? id = some f) :
    ∃ f', c'.stagedFile? (ρ id) = some f' ∧ f'.bare = (f.rename ρ).bare := by
  obtain ⟨hin, rfl⟩ := h.sound.stagedFile?_eq_some_iff.mp hf
  have hplan : (f.path, f.content) ∈ c'.plan := h.plan ▸ List.mem_map_of_mem hin
  obtain ⟨f', hf', hk⟩ := List.mem_map.mp hplan
  rw [Prod.mk.injEq] at hk
  have hbare := h.bare_eq hmatch hin hf' hk.1 hk.2
  have hid : f'.id = ρ f.id := congrArg SourceFile.id hbare
  exact ⟨f', h.sound'.stagedFile?_eq_some_iff.mpr ⟨hf', hid⟩, hbare⟩

end Twins

/-- The ids that staging a path answers match, if the caches match afterwards. -/
theorem stage_match {ρ : FileId → FileId} {c c' : Cache} (h : c.Sound) (h' : c'.Sound) (p : Path)
    (content : Text) (hmatch : (c.stage p content).2.Match ρ (c'.stage p content).2) :
    (c'.stage p content).1.id = ρ (c.stage p content).1.id := by
  obtain ⟨f, hf, hid, hp, _⟩ := h.stagedFiles_stage p content
  obtain ⟨f', hf', hid', hp', _⟩ := h'.stagedFiles_stage p content
  have hs := h.stage p content
  have hs' := h'.stage p content
  obtain ⟨e, he, _, rfl⟩ := hs.mem_stagedFiles.mp hf
  obtain ⟨e', he', _, rfl⟩ := hs'.mem_stagedFiles.mp hf'
  have hn := (hs.entries e he).next.2
  have hn' := (hs'.entries e' he').next.2
  have hpath : e.path = e'.path := hn.2.symm.trans (hp.trans (hp'.symm.trans hn'.2))
  rw [← hid, ← hid', hn.1, hn'.1]
  exact hmatch e he e' he' hpath

end Cache

/-! ## Discoveries on twins -/

/-- Two discoveries under way on twins: the same files are still to be searched, and the warnings
so far are the same, under the renaming. -/
structure Discovery.Twins (contents : Set Text) (ρ : FileId → FileId) (d d' : Discovery) : Prop
    extends Cache.Twins contents d.cache d'.cache where
  queue : d'.queue = d.queue.map ρ
  queued : ∀ id ∈ d.queue, id ∈ d.cache.staged
  log : d'.log.held = d.log.held.map (Diagnostic.rename ρ)

namespace Discovery

variable {contents : Set Text} {loader : Loader} (hloader : loader.Within contents)
  (readFiles : Bool) {ρ : FileId → FileId}

theorem Twins.emit {d d' : Discovery} (h : Twins contents ρ d d') {w w' : Diagnostic}
    (hw : w' = w.rename ρ) :
    Twins contents ρ { d with log := d.log.emit w } { d' with log := d'.log.emit w' } := by
  refine ⟨h.toTwins, h.queue, h.queued, ?_⟩
  show d'.log.held ++ [w'] = (d.log.held ++ [w]).map (Diagnostic.rename ρ)
  rw [List.map_append, h.log, hw]
  rfl

include hloader

theorem Twins.follow (hinj : Set.InjOn ContentHash.ofText contents) {d d' : Discovery}
    (h : Twins contents ρ d d') (r : Reference)
    (hmatch : (Discovery.follow loader readFiles d r).cache.Match ρ
      (Discovery.follow loader readFiles d' (r.rename ρ)).cache) :
    Twins contents ρ (Discovery.follow loader readFiles d r)
      (Discovery.follow loader readFiles d' (r.rename ρ)) := by
  have hstaged : d'.cache.isStaged (r.rename ρ).path = d.cache.isStaged r.path := h.isStaged r.path
  unfold Discovery.follow at hmatch ⊢
  rw [hstaged] at hmatch ⊢
  split
  · exact h
  · next hs =>
    split
    · exact h.emit rfl
    · next hr =>
      rw [show loader.read (r.rename ρ).path = loader.read r.path from rfl] at hmatch ⊢
      cases hread : loader.read r.path with
      | error reason => exact h.emit rfl
      | ok content =>
        simp only [hs, hr, hread, if_false, Bool.false_eq_true] at hmatch
        -- both stage the same content, and the ids they answer match as they do at the end
        have hstage := h.stage hinj r.path (hloader.read hread)
        have hid := Cache.stage_match h.sound h.sound' r.path content
          (hmatch.mono (hstage.sound.names_markExternal r.path)
            (hstage.sound'.names_markExternal r.path))
        obtain ⟨f, hf, hfid, _⟩ := h.sound.stagedFiles_stage r.path content
        refine ⟨hstage.markExternal r.path, ?_, fun id hin => ?_, h.log⟩
        · show d'.queue ++ [_] = (d.queue ++ [_]).map ρ
          rw [List.map_append, h.queue]
          exact congrArg (_ ++ [·]) hid
        · show id ∈ ((d.cache.stage r.path content).2.markExternal r.path).2.staged
          rw [hstage.sound.staged_markExternal]
          rcases List.mem_append.mp hin with hin | hin
          · exact h.sound.staged_stage r.path content (h.queued id hin)
          · rw [List.mem_singleton.mp hin, ← hstage.sound.stagedFiles_id]
            exact hfid ▸ List.mem_map_of_mem hf

theorem Twins.follow_all (hinj : Set.InjOn ContentHash.ofText contents)
    {references : List Reference} {d d' : Discovery} (h : Twins contents ρ d d')
    (hmatch : (references.foldl (Discovery.follow loader readFiles) d).cache.Match ρ
      ((references.map (Reference.rename ρ)).foldl (Discovery.follow loader readFiles) d').cache) :
    Twins contents ρ (references.foldl (Discovery.follow loader readFiles) d)
      ((references.map (Reference.rename ρ)).foldl (Discovery.follow loader readFiles) d') := by
  induction references generalizing d d' with
  | nil => exact h
  | cons r references ih =>
    have hstages := follow_stages hloader readFiles d r
    have hstages' := follow_stages hloader readFiles d' (r.rename ρ)
    have hnames := (follow_all_stages hloader readFiles references _).names (hstages.sound h.sound)
    have hnames' := (follow_all_stages hloader readFiles (references.map (Reference.rename ρ))
      _).names (hstages'.sound h.sound')
    exact ih (h.follow hloader readFiles hinj r (hmatch.mono hnames hnames')) hmatch

theorem Twins.search (hinj : Set.InjOn ContentHash.ofText contents) {d d' : Discovery}
    (h : Twins contents ρ d d') {id : FileId} (hid : id ∈ d.cache.staged)
    (hmatch : (Discovery.search loader readFiles d id).cache.Match ρ
      (Discovery.search loader readFiles d' (ρ id)).cache) :
    Twins contents ρ (Discovery.search loader readFiles d id)
      (Discovery.search loader readFiles d' (ρ id)) := by
  have hnow : d.cache.Match ρ d'.cache := hmatch.mono
    ((search_stages hloader readFiles d id).names h.sound)
    ((search_stages hloader readFiles d' (ρ id)).names h.sound')
  rw [← h.sound.stagedFiles_id] at hid
  obtain ⟨f, hf, rfl⟩ := List.mem_map.mp hid
  have hfile := h.sound.stagedFile?_eq_some_iff.mpr ⟨hf, rfl⟩
  obtain ⟨f', hfile', hbare⟩ := h.stagedFile? hnow hfile
  have hrefs : f'.references = f.references.map (Reference.rename ρ) :=
    congrArg SourceFile.references hbare
  -- the same references are left of both files, since the same paths are staged
  have hfilter : (f.references.map (Reference.rename ρ)).filter
        (fun r => !d'.cache.isStaged r.path) =
      (f.references.filter fun r => !d.cache.isStaged r.path).map (Reference.rename ρ) := by
    rw [List.filter_map]
    congr 1
    apply List.filter_congr
    intro r _
    exact congrArg (!·) (h.isStaged r.path)
  unfold Discovery.search at hmatch ⊢
  simp only [hfile, hfile', hrefs, hfilter] at hmatch ⊢
  exact h.follow_all hloader readFiles hinj hmatch

theorem Twins.run (hinj : Set.InjOn ContentHash.ofText contents) (bound : Nat)
    {d d' : Discovery} (h : Twins contents ρ d d')
    (hmatch : (Discovery.run loader readFiles bound d).cache.Match ρ
      (Discovery.run loader readFiles bound d').cache) :
    Twins contents ρ (Discovery.run loader readFiles bound d)
      (Discovery.run loader readFiles bound d') := by
  induction bound generalizing d d' with
  | zero => exact h
  | succ bound ih =>
    unfold Discovery.run at hmatch ⊢
    have hqueue := h.queue
    cases hq : d.queue with
    | nil =>
      rw [hq, List.map_nil] at hqueue
      simp only [hqueue]
      exact h
    | cons id queue =>
      rw [hq, List.map_cons] at hqueue
      simp only [hq, hqueue] at hmatch ⊢
      have hqueued := h.queued
      rw [hq] at hqueued
      have hnext : Twins contents ρ { d with queue } { d' with queue := queue.map ρ } :=
        ⟨h.toTwins, rfl, fun x hx => hqueued x (List.mem_cons_of_mem id hx), h.log⟩
      have hstages := search_stages hloader readFiles { d with queue } id
      have hstages' := search_stages hloader readFiles { d' with queue := queue.map ρ } (ρ id)
      -- names stay, so what matches at the end of the run matches after its first search
      have hnames := (run_stages hloader readFiles bound _).names (hstages.sound h.sound)
      have hnames' := (run_stages hloader readFiles bound _).names (hstages'.sound h.sound')
      have hsearch := hnext.search hloader readFiles hinj (hqueued id List.mem_cons_self)
        (hmatch.mono hnames hnames')
      exact ih hsearch hmatch

end Discovery

/-- What a discovery stages and warns about is a function of the plan, but for the ids. -/
theorem Cache.Twins.stageExternals {contents : Set Text}
    (hinj : Set.InjOn ContentHash.ofText contents) {loader : Loader}
    (hloader : loader.Within contents) (noExternalResolve : Bool) {ρ : FileId → FileId}
    {c c' : Cache} (h : c.Twins contents c')
    (hmatch : (stageExternals loader noExternalResolve c).cache.Match ρ
      (IncrementalBuild.stageExternals loader noExternalResolve c').cache) :
    Discovery.Twins contents ρ (IncrementalBuild.stageExternals loader noExternalResolve c)
      (IncrementalBuild.stageExternals loader noExternalResolve c') := by
  have hnow : c.Match ρ c' := hmatch.mono
    ((stageExternals_stages hloader noExternalResolve c).names h.sound)
    ((stageExternals_stages hloader noExternalResolve c').names h.sound')
  have hqueue := h.stagedFiles_id hnow
  have hlength : (c'.stagedFiles.map SourceFile.id).length =
      (c.stagedFiles.map SourceFile.id).length := by
    rw [hqueue, List.length_map]
  unfold IncrementalBuild.stageExternals at hmatch ⊢
  dsimp only at hmatch ⊢
  rw [hlength] at hmatch ⊢
  refine Discovery.Twins.run hloader _ hinj _ ⟨h, hqueue, fun id hid => ?_, rfl⟩ hmatch
  exact h.sound.stagedFiles_id ▸ hid

end IncrementalBuild
