import IncrementalBuild.Proofs.ChangeHistory
import IncrementalBuild.Proofs.NormalForm
import IncrementalBuild.Proofs.Staging
/-!
# Reachable caches

What holds of every cache that operations on the empty cache lead to. Such a cache is sound, and
its files stand under paths in normal form. What is stated besides: staging and marking leave the
checkpoint alone, and staging files that are not staged yet puts them at the end.
-/
namespace IncrementalBuild

/-- A call that stages or marks a file for the next cycle. -/
inductive StagingCall where
  | upsert (p : Path) (content : Text)
  | markExternal (p : Path)

namespace Cache

def call (c : Cache) : StagingCall → Cache
  | .upsert p content => (c.stage p content).2
  | .markExternal p => (c.markExternal p).2

def stageCalls (c : Cache) (calls : List StagingCall) : Cache := calls.foldl call c

/-! ## Every reachable cache -/

theorem Sound.apply {c : Cache} (h : c.Sound) (s : CacheStep) : (c.apply s).Sound := by
  cases s with
  | upsert p content => exact h.stage p content
  | markExternal p => exact h.markExternal p
  | reset => exact h.commit
  | rollback => exact h.rollback
  | prune keep => exact h.prune keep

theorem runSteps_append (steps more : List CacheStep) :
    runSteps (steps ++ more) = more.foldl Cache.apply (runSteps steps) := List.foldl_append

/-- What holds of the empty cache and is kept by every operation holds of every reachable
cache. -/
theorem runSteps_of {P : Cache → Prop} (hempty : P empty)
    (hstep : ∀ (c : Cache) (s : CacheStep), c.Sound → P c → P (c.apply s))
    (steps : List CacheStep) : P (runSteps steps) := by
  have hfold : ∀ c : Cache, c.Sound → P c → P (steps.foldl Cache.apply c) := by
    induction steps with
    | nil => exact fun _ _ hP => hP
    | cons s steps ih => exact fun c h hP => ih _ (h.apply s) (hstep c s h hP)
  exact hfold empty empty_sound hempty

theorem runSteps_sound (steps : List CacheStep) : (runSteps steps).Sound :=
  runSteps_of empty_sound (fun _ s h _ => h.apply s) steps

theorem runSteps_made (steps : List CacheStep) (id : FileId) (f : SourceFile)
    (h : (runSteps steps).file? id = some f) : f.Made := by
  obtain ⟨e, he, rfl⟩ := Option.map_eq_some_iff.mp h
  exact ((runSteps_sound steps).entries e (List.mem_of_find?_eq_some he)).file

/-- The files that are staged are made of their contents, as the committed ones are. -/
theorem runSteps_staged_made (steps : List CacheStep) (id : FileId) (f : SourceFile)
    (h : (runSteps steps).stagedFile? id = some f) : f.Made := by
  obtain ⟨e, he, rfl⟩ := Option.map_eq_some_iff.mp h
  have hentry := List.mem_of_find?_eq_some (Option.filter_eq_some_iff.mp he).1
  have hsound := (runSteps_sound steps).entries e hentry
  unfold Entry.next
  cases hpending : e.pending with
  | none => exact hsound.file
  | some f => exact (hsound.pending f hpending).1

/-- Every file stands under a path in normal form. -/
def Normal (c : Cache) : Prop := ∀ e ∈ c.entries, e.path.IsNormal

theorem Normal.map {c c' : Cache} (h : c.Normal) {g : Entry → Entry}
    (hentries : c'.entries = c.entries.map g) (hg : ∀ e ∈ c.entries, (g e).path = e.path) :
    c'.Normal := by
  intro e he
  rw [hentries] at he
  obtain ⟨x, hx, rfl⟩ := List.mem_map.mp he
  exact hg x hx ▸ h x hx

theorem Normal.stage {c : Cache} (h : c.Normal) (hs : c.Sound) (p : Path) (content : Text) :
    (c.stage p content).2.Normal := by
  obtain ⟨e, _, _, _, heq⟩ | ⟨_, _, heq⟩ := hs.stage_cases p content
  · rw [heq]
    exact h.map rfl fun x _ => (Entry.Keeps.changeAt (Entry.restage_keeps content) e.id x).path
  · rw [heq]
    intro x hx
    rcases List.mem_append.mp hx with hx | hx
    · exact h x hx
    · rw [List.mem_singleton.mp hx]
      exact p.normalize_isNormal

theorem Normal.markExternal {c : Cache} (h : c.Normal) (hs : c.Sound) (p : Path) :
    (c.markExternal p).2.Normal := by
  obtain ⟨e, _, _, heq⟩ | ⟨_, heq⟩ := hs.markExternal_cases p
  · rw [heq]
    exact h.map rfl fun x _ => (Entry.Keeps.changeAt (Entry.setExternal_keeps true) e.id x).path
  · rw [heq]
    exact h

theorem Normal.apply {c : Cache} (h : c.Normal) (hs : c.Sound) (s : CacheStep) :
    (c.apply s).Normal := by
  cases s with
  | upsert p content => exact h.stage hs p content
  | markExternal p => exact h.markExternal hs p
  | reset => exact h.map c.commit_entries fun _ he => (hs.commitEntry_name he).2
  | rollback =>
    show c.rollback.2.Normal
    cases hk : c.checkpoint with
    | none =>
      rw [rollback_of_none hk]
      exact h
    | some k =>
      rw [hs.rollback_eq hk]
      exact h.map rfl fun _ he => (hs.bringBack_name (hs.checkpoint k hk) he).2
  | prune keep =>
    show (c.prune keep).2.Normal
    rw [hs.prune_eq keep]
    intro e he
    obtain ⟨x, hx, rfl⟩ := List.mem_map.mp he
    exact h x (List.mem_filter.mp hx).1

theorem runSteps_normal (steps : List CacheStep) : (runSteps steps).Normal :=
  runSteps_of (fun _ he => absurd he List.not_mem_nil) (fun _ s hs h => h.apply hs s) steps

/-! ## The files of a cycle -/

section
variable {c : Cache} (h : c.WellFormed)
include h

theorem WellFormed.nodup_files_id : (c.files.map SourceFile.id).Nodup :=
  h.files_id ▸ h.membersNodup

theorem WellFormed.nodup_files_path : (c.files.map SourceFile.path).Nodup := by
  refine (List.Nodup.of_map _ h.nodup_files_id).map_on fun f hf f' hf' hpath => ?_
  obtain ⟨e, he, _, rfl⟩ := h.mem_files.mp hf
  obtain ⟨e', he', _, rfl⟩ := h.mem_files.mp hf'
  exact congrArg Entry.file (h.eq_of_path he he' hpath)

theorem WellFormed.file?_of_mem_files {f : SourceFile} (hf : f ∈ c.files) :
    c.file? f.id = some f := by
  obtain ⟨e, he, _, rfl⟩ := h.mem_files.mp hf
  exact congrArg (Option.map Entry.file) (h.entry?_of_mem he)

theorem WellFormed.files_normal (hnormal : c.Normal) {f : SourceFile} (hf : f ∈ c.files) :
    f.path.IsNormal := by
  obtain ⟨e, he, _, rfl⟩ := h.mem_files.mp hf
  exact hnormal e he

end

/-! ## Calls -/

theorem stageCalls_stages (c : Cache) (calls : List StagingCall) :
    c.Stages Set.univ (c.stageCalls calls) := by
  induction calls generalizing c with
  | nil => exact .refl
  | cons call calls ih =>
    have hcall : c.Stages Set.univ (c.call call) := by
      cases call with
      | upsert p content => exact .stage .refl p (Set.mem_univ content)
      | markExternal p => exact .mark .refl p
    exact hcall.trans (ih _)

theorem Stages.checkpoint {contents : Set Text} {a b : Cache} (h : Stages contents a b)
    (ha : a.Sound) : b.checkpoint = a.checkpoint := by
  induction h with
  | refl => rfl
  | stage h p _ ih => exact (stage_checkpoint (h.sound ha).toWellFormed p _).trans ih
  | mark h p ih => exact (markExternal_checkpoint (h.sound ha).toWellFormed p).trans ih

theorem Sound.mention_stage {c : Cache} (h : c.Sound) (p : Path) (content : Text) :
    (c.stage p content).2.stagedFiles.map SourceFile.mention =
      put (c.stagedFiles.map SourceFile.mention) p.normalize (ContentHash.ofText content) := by
  obtain ⟨f, _, _, _, hash, hput⟩ := h.stagedFiles_stage p content
  rw [← hash]
  exact hput SourceFile.hash

/-- The calls that stage files again. -/
def restaging (files : List SourceFile) : List StagingCall :=
  files.map fun f => .upsert f.path f.content

/-- Files that are not staged yet are staged at the end, in their order. -/
theorem Sound.mention_restaging {c : Cache} (h : c.Sound) {files : List SourceFile}
    (hmade : ∀ f ∈ files, f.Made) (hnormal : ∀ f ∈ files, f.path.IsNormal)
    (hnodup : (((c.stagedFiles ++ files).map SourceFile.mention).map Prod.fst).Nodup) :
    (c.stageCalls (restaging files)).stagedFiles.map SourceFile.mention =
      (c.stagedFiles ++ files).map SourceFile.mention := by
  induction files generalizing c with
  | nil =>
    rw [List.append_nil]
    rfl
  | cons f files ih =>
    have hf := List.mem_cons_self (a := f) (l := files)
    have hnew : f.path ∉ (c.stagedFiles.map SourceFile.mention).map Prod.fst := by
      rw [List.map_append, List.map_append, List.nodup_append] at hnodup
      exact fun hin => hnodup.2.2 _ hin _ List.mem_cons_self rfl
    -- the file comes last among those that are staged after it
    have hstage : (c.stage f.path f.content).2.stagedFiles.map SourceFile.mention =
        c.stagedFiles.map SourceFile.mention ++ [f.mention] := by
      rw [h.mention_stage, hnormal f hf, put, if_neg hnew, ← (hmade f hf).hash]
      rfl
    have hall : ((c.stage f.path f.content).2.stagedFiles ++ files).map SourceFile.mention =
        (c.stagedFiles ++ f :: files).map SourceFile.mention := by
      rw [List.map_append, hstage, List.map_append, List.map_cons, List.append_assoc]
      rfl
    have hrest := ih (h.stage f.path f.content) (fun x hx => hmade x (List.mem_cons_of_mem f hx))
      (fun x hx => hnormal x (List.mem_cons_of_mem f hx)) (by rwa [hall])
    rw [← hall]
    exact hrest

end Cache

end IncrementalBuild
