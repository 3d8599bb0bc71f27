import IncrementalBuild.Proofs.ReferenceClosure
/-!
# The warnings of a discovery

A discovery follows every reference of every staged file. A reference either leads to a staged
file in the end, or it was told of in one warning. Which of the two it is does not depend on the
order of the search: a file is staged as soon as a reference to it is followed, unless it cannot
be read, and then it is never staged.
-/
namespace IncrementalBuild

/-- Whether a discovery can stage the file of a path: files are read, and there is a content. -/
def Loader.Offers (l : Loader) (readFiles : Bool) (p : Path) : Prop :=
  readFiles = true ∧ l.Reads p

namespace Discovery

/-- The warning for a reference that leads nowhere. -/
def warning (loader : Loader) (readFiles : Bool) (r : Reference) : Diagnostic :=
  if readFiles then unreadable r (loader.missing r.path) else unresolved r

variable {loader : Loader} {readFiles : Bool}

/-! ## One reference -/

/-- A reference leads to a staged file, or there is a warning, or the file is staged now. -/
theorem follow_cases (loader : Loader) (readFiles : Bool) (d : Discovery) (r : Reference) :
    (d.cache.isStaged r.path = true ∧ follow loader readFiles d r = d) ∨
    (d.cache.isStaged r.path = false ∧ ¬ loader.Offers readFiles r.path ∧
      follow loader readFiles d r = { d with log := d.log.emit (warning loader readFiles r) }) ∨
    (d.cache.isStaged r.path = false ∧ ∃ content, loader.read r.path = .ok content ∧
      readFiles = true ∧ (follow loader readFiles d r).log = d.log ∧
      (follow loader readFiles d r).cache =
        ((d.cache.stage r.path content).2.markExternal r.path).2) := by
  unfold follow warning
  cases hstaged : d.cache.isStaged r.path with
  | true => exact Or.inl ⟨rfl, rfl⟩
  | false =>
    refine Or.inr ?_
    cases readFiles with
    | false => exact Or.inl ⟨rfl, fun h => Bool.noConfusion h.1, rfl⟩
    | true =>
      cases hread : loader.read r.path with
      | ok content => exact Or.inr ⟨rfl, content, rfl, rfl, rfl, rfl⟩
      | error reason =>
        have hreason : reason = loader.missing r.path := by
          unfold Loader.read at hread
          split at hread
          · cases hread
          · exact (Except.error.inj hread).symm
        refine Or.inl ⟨rfl, ?_, ?_⟩
        · rintro ⟨_, content, hcontent⟩
          cases hread.symm.trans hcontent
        · rw [hreason]
          rfl

/-! ## Many references -/

/-- The discovery `d'` comes from `d` by following references: those that lead to no staged file
in the end are the ones it warned of, in order. What cannot be read was not staged, and what was
referred to and can be read is. -/
structure Heeds (loader : Loader) (readFiles : Bool) (references : List Reference)
    (d d' : Discovery) : Prop where
  normal : ∀ r ∈ references, r.path.IsNormal
  kept : ∀ p, d.cache.isStaged p = true → d'.cache.isStaged p = true
  only : ∀ p : Path, p.IsNormal → ¬ loader.Offers readFiles p →
    d'.cache.isStaged p = d.cache.isStaged p
  all : ∀ r ∈ references, loader.Offers readFiles r.path → d'.cache.isStaged r.path = true
  log : d'.log.held = d.log.held ++
    (references.filter fun r => !d'.cache.isStaged r.path).map (warning loader readFiles)

theorem Heeds.nil (loader : Loader) (readFiles : Bool) (d : Discovery) :
    Heeds loader readFiles [] d d where
  normal _ hr := absurd hr List.not_mem_nil
  kept _ h := h
  only _ _ _ := rfl
  all _ hr := absurd hr List.not_mem_nil
  log := (List.append_nil _).symm

section
variable {references more : List Reference} {d d₁ d₂ : Discovery}

/-- References that were followed lead to staged files or not, whatever is followed later. -/
theorem Heeds.filter_eq (h : Heeds loader readFiles references d d₁)
    (h' : Heeds loader readFiles more d₁ d₂) :
    (references.filter fun r => !d₁.cache.isStaged r.path) =
      references.filter fun r => !d₂.cache.isStaged r.path := by
  apply List.filter_congr
  intro r hr
  by_cases hoffers : loader.Offers readFiles r.path
  · rw [h.all r hr hoffers, h'.kept _ (h.all r hr hoffers)]
  · rw [h'.only _ (h.normal r hr) hoffers]

theorem Heeds.append (h : Heeds loader readFiles references d d₁)
    (h' : Heeds loader readFiles more d₁ d₂) :
    Heeds loader readFiles (references ++ more) d d₂ where
  normal r hr := (List.mem_append.mp hr).elim (h.normal r) (h'.normal r)
  kept p hp := h'.kept p (h.kept p hp)
  only p hp hoffers := (h'.only p hp hoffers).trans (h.only p hp hoffers)
  all r hr hoffers := (List.mem_append.mp hr).elim
    (fun hr => h'.kept _ (h.all r hr hoffers)) (fun hr => h'.all r hr hoffers)
  log := by rw [h'.log, h.log, h.filter_eq h', List.append_assoc, List.filter_append,
    List.map_append]

theorem follow_heeds (loader : Loader) (readFiles : Bool) {d : Discovery} (h : d.cache.Sound)
    {r : Reference} (hr : r.path.IsNormal) :
    Heeds loader readFiles [r] d (follow loader readFiles d r) := by
  have hnormal : ∀ x ∈ [r], x.path.IsNormal := fun x hx => List.mem_singleton.mp hx ▸ hr
  rcases follow_cases loader readFiles d r with
    ⟨hstaged, heq⟩ | ⟨hstaged, hoffers, heq⟩ | ⟨hstaged, content, hread, hfiles, hlog, hcache⟩
  · rw [heq]
    refine ⟨hnormal, fun _ hp => hp, fun _ _ _ => rfl, fun x hx _ => ?_, ?_⟩
    · rw [List.mem_singleton.mp hx]
      exact hstaged
    · simp [hstaged]
  · rw [heq]
    refine ⟨hnormal, fun _ hp => hp, fun _ _ _ => rfl, fun x hx hxo => ?_, ?_⟩
    · rw [List.mem_singleton.mp hx] at hxo
      exact absurd hxo hoffers
    · simp [hstaged, DiagnosticLog.emit]
  · -- the file of the reference is staged after all others, and no other is
    obtain ⟨e, happended, _, hpath, _⟩ := h.stagedEntries_fetch hr hstaged hread
    have hsound := (h.stage r.path content).markExternal r.path
    have hiff : ∀ p : Path, (follow loader readFiles d r).cache.isStaged p = true ↔
        d.cache.isStaged p = true ∨ p.normalize = r.path := by
      intro p
      rw [hcache, hsound.isStaged_iff, hsound.stagedFiles_path, happended, List.map_append,
        List.mem_append, ← h.stagedFiles_path, ← h.isStaged_iff, List.map_singleton,
        List.mem_singleton, hpath]
    have hself : (follow loader readFiles d r).cache.isStaged r.path = true :=
      (hiff r.path).mpr (Or.inr hr)
    refine ⟨hnormal, fun p hp => (hiff p).mpr (Or.inl hp), fun p hp hoffers => ?_,
      fun x hx _ => ?_, ?_⟩
    · rw [Bool.eq_iff_iff, hiff, hp]
      refine or_iff_left fun hpr => hoffers ?_
      rw [hpr]
      exact ⟨hfiles, content, hread⟩
    · rw [List.mem_singleton.mp hx]
      exact hself
    · simp [hself, hlog]

theorem follow_all_heeds (loader : Loader) (readFiles : Bool) {references : List Reference}
    (hr : ∀ r ∈ references, r.path.IsNormal) {d : Discovery} (h : d.cache.Sound) :
    Heeds loader readFiles references d (references.foldl (follow loader readFiles) d) := by
  induction references generalizing d with
  | nil => exact .nil loader readFiles d
  | cons r references ih =>
    have hsound := (follow_stages loader.within_univ readFiles d r).sound h
    exact (follow_heeds loader readFiles h (hr r List.mem_cons_self)).append
      (ih (fun x hx => hr x (List.mem_cons_of_mem r hx)) hsound)

/-- A search follows the references to files that are not staged, and heeds all of them. -/
theorem search_heeds (loader : Loader) (readFiles : Bool) {d : Discovery} (h : d.cache.Sound)
    {f : SourceFile} (hf : f ∈ d.cache.stagedFiles) :
    Heeds loader readFiles f.references d (search loader readFiles d f.id) := by
  have hnormal : ∀ r ∈ f.references, r.path.IsNormal := fun r hr =>
    (h.stagedFiles_made hf).reference_normal hr
  unfold search
  rw [h.stagedFile?_eq_some_iff.mpr ⟨hf, rfl⟩]
  dsimp only
  have hfilter : ∀ r ∈ f.references.filter fun r => !d.cache.isStaged r.path, r.path.IsNormal :=
    fun r hr => hnormal r (List.mem_filter.mp hr).1
  have hopen := follow_all_heeds loader readFiles hfilter h
  refine ⟨hnormal, hopen.kept, hopen.only, fun r hr hoffers => ?_, ?_⟩
  · cases hstaged : d.cache.isStaged r.path with
    | true => exact hopen.kept _ hstaged
    | false => exact hopen.all r (List.mem_filter.mpr ⟨hr, by simp [hstaged]⟩) hoffers
  · rw [hopen.log, List.filter_filter]
    congr 2
    apply List.filter_congr
    intro r _
    -- what was staged before the search is staged after it
    cases hstaged : d.cache.isStaged r.path with
    | true => simp [hopen.kept _ hstaged]
    | false => simp

end

/-! ## The whole search -/

theorem search_appends (loader : Loader) (readFiles : Bool) {d : Discovery} (h : d.cache.Sound)
    {f : SourceFile} (hf : f ∈ d.cache.stagedFiles) : ∃ more : List SourceFile,
      (search loader readFiles d f.id).cache.stagedFiles = d.cache.stagedFiles ++ more ∧
      (search loader readFiles d f.id).queue = d.queue ++ more.map SourceFile.id := by
  cases readFiles with
  | false =>
    obtain ⟨log, hsearch⟩ := search_unread loader d f.id
    rw [hsearch]
    exact ⟨[], (List.append_nil _).symm, (List.append_nil _).symm⟩
  | true =>
    obtain ⟨new, hnew⟩ := search_resolves loader h hf
    refine ⟨new.map Entry.next, hnew.stagedFiles, ?_⟩
    rw [hnew.queue, List.map_map]
    congr 1
    refine List.map_congr_left fun e he => ?_
    have hin := hnew.appended ▸ List.mem_append_right d.cache.stagedEntries he
    exact (hnew.sound.stagedEntries_sound hin).next.2.1.symm

/-- What holds while the search from `c` goes on: the staged files are `searched` and then
`waiting`, and the references of the searched files have been heeded. -/
structure Searched (loader : Loader) (readFiles : Bool) (c : Cache) (d : Discovery)
    (searched waiting : List SourceFile) : Prop where
  sound : d.cache.Sound
  files : d.cache.stagedFiles = searched ++ waiting
  queue : d.queue = waiting.map SourceFile.id
  heeds : Heeds loader readFiles (searched.flatMap SourceFile.references) (start c) d

theorem start_searched (loader : Loader) (readFiles : Bool) {c : Cache} (h : c.Sound) :
    Searched loader readFiles c (start c) [] c.stagedFiles :=
  ⟨h, rfl, rfl, .nil loader readFiles _⟩

section
variable {c : Cache} {d : Discovery} {searched waiting : List SourceFile}

theorem Searched.search {f : SourceFile}
    (h : Searched loader readFiles c d searched (f :: waiting)) :
    ∃ more, Searched loader readFiles c
      (Discovery.search loader readFiles { d with queue := waiting.map SourceFile.id } f.id)
      (searched ++ [f]) (waiting ++ more) := by
  have hf : f ∈ d.cache.stagedFiles := by
    rw [h.files]
    exact List.mem_append_right _ List.mem_cons_self
  have hsound := (search_stages loader.within_univ readFiles
    { d with queue := waiting.map SourceFile.id } f.id).sound h.sound
  obtain ⟨more, hfiles, hqueue⟩ := search_appends loader readFiles
    (d := { d with queue := waiting.map SourceFile.id }) h.sound hf
  have hheeds := search_heeds loader readFiles
    (d := { d with queue := waiting.map SourceFile.id }) h.sound hf
  refine ⟨more, hsound, ?_, ?_, ?_⟩
  · rw [hfiles, h.files]
    simp
  · rw [hqueue, List.map_append]
  · rw [List.flatMap_append, List.flatMap_singleton]
    exact h.heeds.append
      ⟨hheeds.normal, hheeds.kept, hheeds.only, hheeds.all, hheeds.log⟩

theorem Searched.run (h : Searched loader readFiles c d searched waiting) (bound : Nat) :
    ∃ searched' waiting', Searched loader readFiles c (Discovery.run loader readFiles bound d)
      searched' waiting' := by
  induction bound generalizing d searched waiting with
  | zero => exact ⟨searched, waiting, h⟩
  | succ bound ih =>
    unfold Discovery.run
    rw [h.queue]
    cases waiting with
    | nil => exact ⟨searched, [], h⟩
    | cons f waiting =>
      obtain ⟨more, hmore⟩ := h.search
      exact ih hmore

end

section
variable (loader : Loader) (noExternalResolve : Bool) {c : Cache} (h : c.Sound)
include h

theorem stageExternals_ends : (stageExternals loader noExternalResolve c).queue = [] := by
  cases noExternalResolve with
  | true =>
    obtain ⟨log, heq⟩ := stageExternals_unread loader c
    rw [heq]
  | false =>
    obtain ⟨searched, new, hrun⟩ := run_complete loader h (Nat.le_refl _)
    rw [stageExternals_eq]
    exact hrun.queue

/-- The warnings of a discovery are those for the references that lead to no staged file, one for
each, in the order of the staged files and of the markers in each of them. -/
theorem stageExternals_log : (stageExternals loader noExternalResolve c).log.held =
    (((stageExternals loader noExternalResolve c).cache.stagedFiles.flatMap
      SourceFile.references).filter fun r =>
        !(stageExternals loader noExternalResolve c).cache.isStaged r.path).map
      (warning loader (!noExternalResolve)) := by
  have hends := stageExternals_ends loader noExternalResolve h
  rw [stageExternals_eq] at hends ⊢
  obtain ⟨searched, waiting, hrun⟩ := (start_searched loader (!noExternalResolve) h).run
    (c.stagedFiles.length + loader.files.length)
  -- nothing waits, so the files that were searched are all of the staged ones
  have hwaiting : waiting = [] := List.map_eq_nil_iff.mp (hrun.queue.symm.trans hends)
  rw [hrun.files, hwaiting, List.append_nil]
  exact hrun.heeds.log

end

end Discovery

end IncrementalBuild
