import IncrementalBuild.Proofs.CommittedView
import IncrementalBuild.Proofs.StagedView
import Mathlib.Data.Set.Function
/-!
# Runs of staging

Between two cycles a cache is only staged into and marked. Such runs show nothing of themselves in
the committed cycle, keep the ids of the files, and stage what they are given: if no two of the
contents have one hash, what is staged is a function of the paths and the contents.
-/
namespace IncrementalBuild

namespace Cache

/-! ## The contents a cache holds -/

/-- Every content that a cache holds, or that a rollback would bring back, is one of `contents`. -/
structure Within (contents : Set Text) (c : Cache) : Prop where
  entries : ∀ e ∈ c.entries, e.Within contents
  saved : ∀ k, c.checkpoint = some k → ∀ s ∈ k.entries, ∀ f, s.file = some f →
    f.content ∈ contents

theorem empty_within (contents : Set Text) : empty.Within contents := by
  refine ⟨?_, ?_⟩ <;> simp [empty]

section
variable {contents : Set Text} {c : Cache} (hc : c.WellFormed) (h : c.Within contents)
include hc h

theorem Within.stage (p : Path) {content : Text} (hcontent : content ∈ contents) :
    (c.stage p content).2.Within contents := by
  obtain ⟨e, he, _, _, heq⟩ | ⟨_, _, heq⟩ := hc.stage_cases p content
  · rw [heq]
    refine ⟨fun x hx => ?_, h.saved⟩
    obtain ⟨y, hy, rfl⟩ := List.mem_map.mp hx
    exact Entry.changeAt_of (h.entries y hy) ((h.entries y hy).restage content hcontent) e.id
  · rw [heq]
    refine ⟨fun x hx => ?_, h.saved⟩
    rcases List.mem_append.mp hx with hx | hx
    · exact h.entries x hx
    · rw [List.mem_singleton.mp hx]
      exact ⟨hcontent, fun f hf => absurd hf (by simp [newEntry, Entry.new])⟩

theorem Within.markExternal (p : Path) : (c.markExternal p).2.Within contents := by
  obtain ⟨e, he, _, heq⟩ | ⟨_, heq⟩ := hc.markExternal_cases p
  · rw [heq]
    refine ⟨fun x hx => ?_, h.saved⟩
    obtain ⟨y, hy, rfl⟩ := List.mem_map.mp hx
    exact Entry.changeAt_of (f := (·.setExternal true)) (h.entries y hy)
      ((h.entries y hy).setExternal true) e.id
  · rw [heq]
    exact h

theorem Within.commit : c.commit.Within contents := by
  refine ⟨fun x hx => ?_, fun k hk s hs f hf => ?_⟩
  · obtain ⟨e, he, rfl⟩ := List.mem_map.mp hx
    show (c.commitEntry e).Within contents
    cases hs : e.staged with
    | true =>
      obtain ⟨rank, _, heq⟩ := hc.commitEntry_of_staged he hs
      rw [heq]
      exact ⟨(h.entries e he).next, fun f hf => absurd hf (by simp [Entry.commit])⟩
    | false =>
      rw [(hc.commitEntry_of_not_staged he hs).2]
      exact h.entries e he
  · cases hk
    obtain ⟨e, he, _, rfl⟩ := (mem_save_entries hc).mp hs
    obtain ⟨_, _, rfl⟩ := Option.map_eq_some_iff.mp hf
    exact (h.entries e he).1

theorem Within.rollback : c.rollback.2.Within contents := by
  cases hk : c.checkpoint with
  | none =>
    rw [rollback_of_none hk]
    exact h
  | some k =>
    rw [hc.rollback_eq hk]
    refine ⟨fun x hx => ?_, fun k' hk' => absurd hk' (by simp [undo])⟩
    obtain ⟨e, he, rfl⟩ := List.mem_map.mp hx
    unfold Checkpoint.bringBack
    split
    · next s hs =>
      refine ⟨?_, fun f hf => absurd hf (by simp [Entry.restore])⟩
      cases hf : s.file with
      | none => simpa [Entry.restore, hf] using (h.entries e he).1
      | some f =>
        simpa [Entry.restore, hf] using h.saved k hk s (List.mem_of_find?_eq_some hs) f hf
    · exact ⟨(h.entries e he).1, fun f hf => absurd hf (by simp)⟩

theorem Within.prune (keep : List Path) : (c.prune keep).2.Within contents := by
  rw [hc.prune_eq keep]
  refine ⟨fun x hx => ?_, fun k hk => absurd hk (by simp [pruned])⟩
  obtain ⟨e, he, rfl⟩ := List.mem_map.mp hx
  exact h.entries e (List.mem_filter.mp he).1

theorem Within.stagedFiles {f : SourceFile} (hf : f ∈ c.stagedFiles) : f.content ∈ contents := by
  obtain ⟨e, he, _, rfl⟩ := hc.mem_stagedFiles.mp hf
  exact (h.entries e he).next

end

/-! ## Runs -/

/-- The caches that staging contents of a set and marking lead to. -/
inductive Stages (contents : Set Text) (c : Cache) : Cache → Prop
  | refl : Stages contents c c
  | stage {c' : Cache} (h : Stages contents c c') (p : Path) {content : Text}
    (hcontent : content ∈ contents) : Stages contents c (c'.stage p content).2
  | mark {c' : Cache} (h : Stages contents c c') (p : Path) :
    Stages contents c (c'.markExternal p).2

namespace Stages

variable {contents : Set Text} {a b c : Cache}

theorem trans (h : Stages contents a b) (h' : Stages contents b c) : Stages contents a c := by
  induction h' with
  | refl => exact h
  | stage _ p hcontent ih => exact ih.stage p hcontent
  | mark _ p ih => exact ih.mark p

theorem sound (h : Stages contents a b) (ha : a.Sound) : b.Sound := by
  induction h with
  | refl => exact ha
  | stage _ p _ ih => exact ih.stage p _
  | mark _ p ih => exact ih.markExternal p

theorem within (h : Stages contents a b) (ha : a.Sound) (hw : a.Within contents) :
    b.Within contents := by
  induction h with
  | refl => exact hw
  | stage h p hcontent ih => exact Within.stage (h.sound ha).toWellFormed ih p hcontent
  | mark h p ih => exact Within.markExternal (h.sound ha).toWellFormed ih p

theorem view (h : Stages contents a b) (ha : a.Sound) : b.view = a.view := by
  induction h with
  | refl => rfl
  | stage h p _ ih => exact ((h.sound ha).view_stage p _).trans ih
  | mark h p ih => exact ((h.sound ha).view_markExternal p).trans ih

end Stages

/-! ## Names -/

/-- Every file of a cache has the same id and path in another. -/
def Names (c c' : Cache) : Prop :=
  ∀ e ∈ c.entries, ∃ e' ∈ c'.entries, e'.id = e.id ∧ e'.path = e.path

theorem Names.refl (c : Cache) : c.Names c := fun e he => ⟨e, he, rfl, rfl⟩

theorem Names.trans {a b c : Cache} (h : a.Names b) (h' : b.Names c) : a.Names c := by
  intro e he
  obtain ⟨x, hx, hid, hp⟩ := h e he
  obtain ⟨y, hy, hid', hp'⟩ := h' x hx
  exact ⟨y, hy, hid'.trans hid, hp'.trans hp⟩

theorem names_of_map {c c' : Cache} {g : Entry → Entry} (hentries : c'.entries = c.entries.map g)
    (hg : ∀ e ∈ c.entries, (g e).id = e.id ∧ (g e).path = e.path) : c.Names c' := by
  intro e he
  exact ⟨g e, hentries ▸ List.mem_map_of_mem he, hg e he⟩

theorem Sound.names_stage {c : Cache} (h : c.Sound) (p : Path) (content : Text) :
    c.Names (c.stage p content).2 := by
  obtain ⟨e, _, _, _, heq⟩ | ⟨_, _, heq⟩ := h.stage_cases p content
  · rw [heq]
    exact names_of_map rfl fun x _ =>
      (Entry.Keeps.changeAt (Entry.restage_keeps content) e.id x).name
  · rw [heq]
    exact fun x hx => ⟨x, List.mem_append_left _ hx, rfl, rfl⟩

theorem Sound.names_markExternal {c : Cache} (h : c.Sound) (p : Path) :
    c.Names (c.markExternal p).2 := by
  obtain ⟨e, _, _, heq⟩ | ⟨_, heq⟩ := h.markExternal_cases p
  · rw [heq]
    exact names_of_map rfl fun x _ =>
      (Entry.Keeps.changeAt (Entry.setExternal_keeps true) e.id x).name
  · rw [heq]
    exact Names.refl c

theorem Sound.names_commit {c : Cache} (h : c.Sound) : c.Names c.commit :=
  names_of_map c.commit_entries fun _ he => h.commitEntry_name he

theorem Sound.names_rollback {c : Cache} (h : c.Sound) : c.Names c.rollback.2 := by
  cases hk : c.checkpoint with
  | none =>
    rw [rollback_of_none hk]
    exact Names.refl c
  | some k =>
    rw [h.rollback_eq hk]
    exact names_of_map rfl fun _ he => h.bringBack_name (h.checkpoint k hk) he

theorem Stages.names {contents : Set Text} {a b : Cache} (h : Stages contents a b)
    (ha : a.Sound) : a.Names b := by
  induction h with
  | refl => exact Names.refl a
  | stage h p _ ih => exact ih.trans ((h.sound ha).names_stage p _)
  | mark h p ih => exact ih.trans ((h.sound ha).names_markExternal p)

/-! ## Plans -/

/-- The staged paths with their contents, in order. -/
def plan (c : Cache) : List (Path × Text) := c.stagedFiles.map fun f => (f.path, f.content)

theorem plan_path (c : Cache) : c.plan.map Prod.fst = c.stagedFiles.map SourceFile.path := by
  unfold plan
  rw [List.map_map]
  rfl

theorem WellFormed.isStaged_iff_plan {c : Cache} (h : c.WellFormed) {p : Path} :
    c.isStaged p = true ↔ p.normalize ∈ c.plan.map Prod.fst := by
  rw [h.isStaged_iff, plan_path]

/-- A file that has the hash of a content has this content, if the contents have different
hashes. -/
theorem content_of_hash {contents : Set Text} (hinj : Set.InjOn ContentHash.ofText contents)
    {f : SourceFile} (hf : f.Made) (hin : f.content ∈ contents) {content : Text}
    (hcontent : content ∈ contents) (hash : f.hash = ContentHash.ofText content) :
    f.content = content :=
  hinj hin hcontent (hf.hash.symm.trans hash)

theorem plan_stage {contents : Set Text} (hinj : Set.InjOn ContentHash.ofText contents)
    {c : Cache} (h : c.Sound) (hw : c.Within contents) (p : Path) {content : Text}
    (hcontent : content ∈ contents) :
    (c.stage p content).2.plan = put c.plan p.normalize content := by
  obtain ⟨f, hf, _, _, hash, hput⟩ := h.stagedFiles_stage p content
  have hs := h.stage p content
  have hin := (Within.stage h.toWellFormed hw p hcontent).stagedFiles hs.toWellFormed hf
  have hplan := hput SourceFile.content
  rwa [content_of_hash hinj (hs.stagedFiles_made hf) hin hcontent hash] at hplan

theorem plan_markExternal {c : Cache} (h : c.Sound) (p : Path) :
    (c.markExternal p).2.plan = c.plan :=
  h.stagedFiles_markExternal p (g := fun f => (f.path, f.content)) fun _ _ => rfl

theorem plan_prune {c : Cache} (h : c.Sound) (keep : List Path) :
    (c.prune keep).2.plan = c.plan.filter (·.1.among keep) := by
  unfold plan
  rw [h.stagedFiles_prune keep, List.filter_map]
  rfl

def extend (plan : List (Path × Text)) (sources : List (Path × Text)) : List (Path × Text) :=
  sources.foldl (fun plan source => put plan source.1.normalize source.2) plan

theorem extend_append (plan sources more : List (Path × Text)) :
    extend plan (sources ++ more) = extend (extend plan sources) more :=
  List.foldl_append

/-- Sources that are not kept leave nothing in the part of a plan that is kept. -/
theorem filter_extend (keep : List Path) (plan sources : List (Path × Text)) :
    (extend plan sources).filter (·.1.among keep) =
      extend (plan.filter (·.1.among keep))
        (sources.filter fun source => source.1.normalize.among keep) := by
  induction sources generalizing plan with
  | nil => rfl
  | cons source sources ih =>
    have hput := filter_put plan source.1.normalize source.2 (·.among keep)
    show (extend (put plan source.1.normalize source.2) sources).filter _ = _
    rw [ih, hput, List.filter_cons]
    split
    · rfl
    · rfl

end Cache

end IncrementalBuild
