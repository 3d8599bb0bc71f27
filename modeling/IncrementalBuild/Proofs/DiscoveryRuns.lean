import IncrementalBuild.Proofs.Renaming
import IncrementalBuild.Proofs.Staging
import IncrementalBuild.Session.Discovery
/-!
# What a discovery does

A discovery stages and marks, and nothing else. The contents it stages are those of the loader,
and each of its warnings is about a file that is staged.
-/
namespace IncrementalBuild

theorem SourceFile.Made.reference_file {f : SourceFile} (h : f.Made) {r : Reference}
    (hr : r ∈ f.references) : r.span.file = f.id :=
  Header.references_file (h.references ▸ hr)

/-- Every content that a loader reads is one of `contents`. -/
def Loader.Within (contents : Set Text) (l : Loader) : Prop := ∀ x ∈ l.files, x.2 ∈ contents

theorem Loader.within_univ (l : Loader) : l.Within Set.univ := fun _ _ => Set.mem_univ _

theorem Loader.empty_within (contents : Set Text) : Loader.empty.Within contents :=
  fun _ hx => absurd hx List.not_mem_nil

theorem Loader.Within.read {contents : Set Text} {l : Loader} (h : l.Within contents) {p : Path}
    {content : Text} (hr : l.read p = .ok content) : content ∈ contents := by
  unfold Loader.read at hr
  split at hr
  · next x hx =>
    cases hr
    exact h _ (List.mem_of_find?_eq_some hx)
  · cases hr

theorem Cache.Sound.staged_stage {c : Cache} (h : c.Sound) (p : Path) (content : Text) :
    c.staged ⊆ (c.stage p content).2.staged := by
  obtain ⟨e, _, _, _, heq⟩ | ⟨_, _, heq⟩ := h.stage_cases p content
  · rw [heq]
    unfold Cache.restageAt
    split
    · exact List.Subset.refl _
    · exact List.subset_append_left ..
  · rw [heq]
    exact List.subset_append_left ..

theorem Cache.Sound.staged_markExternal {c : Cache} (h : c.Sound) (p : Path) :
    (c.markExternal p).2.staged = c.staged := by
  obtain ⟨e, _, _, heq⟩ | ⟨_, heq⟩ := h.markExternal_cases p
  · rw [heq]
    rfl
  · rw [heq]

theorem Cache.Stages.staged {contents : Set Text} {a b : Cache} (h : a.Stages contents b)
    (ha : a.Sound) : a.staged ⊆ b.staged := by
  induction h with
  | refl => exact List.Subset.refl _
  | stage h p _ ih => exact List.Subset.trans ih ((h.sound ha).staged_stage p _)
  | mark h p ih =>
    rw [(h.sound ha).staged_markExternal p]
    exact ih

namespace Discovery

section
variable {contents : Set Text} {loader : Loader} (hloader : loader.Within contents)
  (readFiles : Bool)
include hloader

/-! ## Only staging and marking -/

theorem follow_stages (d : Discovery) (r : Reference) :
    d.cache.Stages contents (follow loader readFiles d r).cache := by
  unfold follow
  split
  · exact .refl
  · split
    · exact .refl
    · split
      · next content hread =>
        exact (Cache.Stages.refl.stage r.path (hloader.read hread)).mark r.path
      · exact .refl

theorem follow_all_stages (references : List Reference) (d : Discovery) :
    d.cache.Stages contents (references.foldl (follow loader readFiles) d).cache := by
  induction references generalizing d with
  | nil => exact .refl
  | cons r references ih => exact (follow_stages hloader readFiles d r).trans (ih _)

theorem search_stages (d : Discovery) (id : FileId) :
    d.cache.Stages contents (search loader readFiles d id).cache := by
  unfold search
  split
  · exact .refl
  · exact follow_all_stages hloader readFiles _ d

theorem run_stages (bound : Nat) (d : Discovery) :
    d.cache.Stages contents (run loader readFiles bound d).cache := by
  induction bound generalizing d with
  | zero => exact .refl
  | succ bound ih =>
    unfold run
    split
    · exact .refl
    · next id queue hqueue =>
      exact (search_stages hloader readFiles { d with queue } id).trans (ih _)

/-! ## Warnings -/

/-- Every warning so far is about a staged file. -/
def Located (d : Discovery) : Prop := ∀ w ∈ d.log.held, ∃ id ∈ d.cache.staged, w.About id

omit hloader in
theorem Located.emit {d : Discovery} (h : d.Located) {w : Diagnostic} {id : FileId}
    (hid : id ∈ d.cache.staged) (hw : w.About id) : ({ d with log := d.log.emit w }).Located := by
  intro x hx
  rcases List.mem_append.mp hx with hx | hx
  · exact h x hx
  · rw [List.mem_singleton.mp hx]
    exact ⟨id, hid, hw⟩

theorem follow_located {d : Discovery} (hd : d.cache.Sound) {r : Reference}
    (hr : r.span.file ∈ d.cache.staged) (h : d.Located) :
    (follow loader readFiles d r).Located := by
  have hstaged := (follow_stages hloader readFiles d r).staged hd
  unfold follow at hstaged ⊢
  split
  · exact h
  · next hns =>
    split
    · exact h.emit hr ⟨rfl, rfl⟩
    · next hread =>
      split
      · next content hcontent =>
        -- no new warning, and the files of the old ones stay staged
        intro w hw
        obtain ⟨id, hid, habout⟩ := h w hw
        refine ⟨id, ?_, habout⟩
        simpa [hns, hread, hcontent] using hstaged hid
      · exact h.emit hr ⟨rfl, rfl⟩

theorem follow_all_located {references : List Reference} {d : Discovery} (hd : d.cache.Sound)
    (hr : ∀ r ∈ references, r.span.file ∈ d.cache.staged) (h : d.Located) :
    (references.foldl (follow loader readFiles) d).Located := by
  induction references generalizing d with
  | nil => exact h
  | cons r references ih =>
    have hstages := follow_stages hloader readFiles d r
    refine ih (hstages.sound hd) (fun x hx => ?_)
      (follow_located hloader readFiles hd (hr r List.mem_cons_self) h)
    exact hstages.staged hd (hr x (List.mem_cons_of_mem r hx))

theorem search_located {d : Discovery} (hd : d.cache.Sound) (id : FileId) (h : d.Located) :
    (search loader readFiles d id).Located := by
  unfold search
  split
  · exact h
  · next f hf =>
    obtain ⟨hin, hid⟩ := hd.stagedFile?_eq_some_iff.mp hf
    refine follow_all_located hloader readFiles hd (fun r hr => ?_) h
    rw [(hd.stagedFiles_made hin).reference_file (List.mem_filter.mp hr).1, ← hd.stagedFiles_id]
    exact List.mem_map_of_mem hin

theorem run_located (bound : Nat) {d : Discovery} (hd : d.cache.Sound) (h : d.Located) :
    (run loader readFiles bound d).Located := by
  induction bound generalizing d with
  | zero => exact h
  | succ bound ih =>
    unfold run
    split
    · exact h
    · next id queue hqueue =>
      exact ih ((search_stages hloader readFiles { d with queue } id).sound hd)
        (search_located hloader readFiles (d := { d with queue }) hd id h)

end

end Discovery

section
variable {contents : Set Text} {loader : Loader} (hloader : loader.Within contents)
  (noExternalResolve : Bool)
include hloader

theorem stageExternals_stages (c : Cache) :
    c.Stages contents (stageExternals loader noExternalResolve c).cache :=
  Discovery.run_stages hloader _ _ ⟨c, c.stagedFiles.map SourceFile.id, .empty, 0⟩

theorem stageExternals_located {c : Cache} (h : c.Sound) :
    (stageExternals loader noExternalResolve c).Located :=
  Discovery.run_located hloader _ _ (d := ⟨c, c.stagedFiles.map SourceFile.id, .empty, 0⟩) h
    fun _ hw => absurd hw List.not_mem_nil

end

end IncrementalBuild
