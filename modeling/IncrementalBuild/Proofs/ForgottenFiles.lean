import IncrementalBuild.Proofs.ReachableCaches
/-!
# Forgotten files

A prune takes the files out of a cache that it is not told to keep: out of the entries, out of the
cycle and out of what is staged. What is stated here: which files these are, that no query knows
them afterwards, that all that is known of the other files stays but their places in the cycle,
and that the next change set is the one without the prune, less the forgotten paths.
-/
namespace IncrementalBuild

/-- An entry without its place in the cycle. -/
def Entry.unplaced (e : Entry) : Entry := { e with rank := none }

/-- A change set without the paths that are not kept. -/
def ChangeSet.keeping (cs : ChangeSet) (keep : List Path) : ChangeSet :=
  { cycle := cs.cycle
    added := cs.added.filter (·.among keep)
    modified := cs.modified.filter (·.among keep)
    reappeared := cs.reappeared.filter (·.among keep)
    removed := cs.removed.filter (·.among keep)
    unchanged := cs.unchanged.filter (·.among keep) }

/-- A call that stages no other paths than those that are kept. -/
def StagingCall.Among (keep : List Path) : StagingCall → Prop
  | .upsert p _ => p.normalize.among keep = true
  | .markExternal _ => True

/-! ## What stands after a prune -/

/-- Against what stands after a prune, what is kept differs as it did before, and there is nothing
else to differ. -/
theorem Standing.Explains.forget {b : Standing} {staged : List (Path × ContentHash)}
    {cs cs' : ChangeSet} {keep : List Path} (h : b.Explains staged cs)
    (h' : (b.forget keep).Explains (staged.filter (·.1.among keep)) cs') :
    cs' = cs.keeping keep := by
  have hfst : ∀ l : List (Path × ContentHash), (l.filter (·.1.among keep)).map Prod.fst =
      (l.map Prod.fst).filter (·.among keep) := by
    intro l
    rw [List.filter_map]
    rfl
  have hlatest : (b.forget keep).latest.map Prod.fst =
      (b.latest.map Prod.fst).filter (·.among keep) := hfst b.latest
  have hadded : cs'.added = cs.added.filter (·.among keep) := by
    rw [h'.added, h.added, hfst, List.filter_filter, List.filter_filter]
    apply List.filter_congr
    intro p _
    cases hp : p.among keep <;> simp [Standing.forget, hp]
  have hreappeared : cs'.reappeared = cs.reappeared.filter (·.among keep) := by
    rw [h'.reappeared, h.reappeared, hfst, hlatest, List.filter_filter, List.filter_filter]
    apply List.filter_congr
    intro p _
    rw [Bool.eq_iff_iff]
    cases hp : p.among keep <;> simp [Standing.forget, hp]
  have hmodified : cs'.modified = cs.modified.filter (·.among keep) := by
    rw [h'.modified, h.modified, ← hfst, List.filter_filter, List.filter_filter]
    congr 1
    apply List.filter_congr
    intro f _
    -- the older file of a kept path is kept too, so it is there to compare with
    have hold : (b.latest.filter (·.1.among keep)).any (fun old => old.1 = f.1 ∧ old.2 ≠ f.2) =
        (f.1.among keep && b.latest.any fun old => old.1 = f.1 ∧ old.2 ≠ f.2) := by
      rw [Bool.eq_iff_iff]
      simp only [List.any_eq_true, List.mem_filter, Bool.and_eq_true, decide_eq_true_iff]
      constructor
      · rintro ⟨old, ⟨hmem, hkept⟩, hpath, hne⟩
        exact ⟨hpath ▸ hkept, old, hmem, hpath, hne⟩
      · rintro ⟨hkept, old, hmem, hpath, hne⟩
        exact ⟨old, ⟨hmem, hpath ▸ hkept⟩, hpath, hne⟩
    show (List.any (b.latest.filter _) _ && _) = _
    rw [hold]
    cases f.1.among keep <;> simp
  have hunchanged : cs'.unchanged = cs.unchanged.filter (·.among keep) := by
    rw [h'.unchanged, h.unchanged, ← hfst, List.filter_filter, List.filter_filter]
    congr 1
    apply List.filter_congr
    intro f _
    cases hf : f.1.among keep <;> simp [Standing.forget, hf]
  have hremoved : cs'.removed = cs.removed.filter (·.among keep) := by
    rw [h'.removed, h.removed, hfst, hlatest, List.filter_filter, List.filter_filter]
    apply List.filter_congr
    intro p _
    cases hp : p.among keep <;> simp [hp]
  have hcycle : cs'.cycle = cs.cycle := h'.cycle.trans h.cycle.symm
  cases cs'
  rw [ChangeSet.keeping, ChangeSet.mk.injEq]
  exact ⟨hcycle, hadded, hmodified, hreappeared, hremoved, hunchanged⟩

namespace History

/-- The second history is the first one with a prune before all that was staged since. -/
structure Forgets (keep : List Path) (h h' : History) : Prop where
  events : h'.events = .forget keep :: h.events
  staged : h'.staged = h.staged.filter (·.1.among keep)

theorem Forgets.prune (h : History) (keep : List Path) : h.Forgets keep (h.step (.prune keep)) :=
  ⟨rfl, rfl⟩

theorem Forgets.upsert {keep : List Path} {h h' : History} (hforgets : h.Forgets keep h')
    {p : Path} (hp : p.normalize.among keep = true) (content : Text) :
    (h.step (.upsert p content)).Forgets keep (h'.step (.upsert p content)) := by
  refine ⟨hforgets.events, ?_⟩
  have hput := filter_put h.staged p.normalize (ContentHash.ofText content) (·.among keep)
  rw [if_pos hp, ← hforgets.staged] at hput
  exact hput.symm

end History

namespace Cache

/-- What a cache is after it forgot the files that are not kept. Of the other entries only the
places in the cycle may differ, which are counted anew. -/
structure Forgets (keep : List Path) (c c' : Cache) : Prop where
  entries : c'.entries.map Entry.unplaced =
    (c.entries.filter (·.path.among keep)).map Entry.unplaced
  nextId : c'.nextId = c.nextId
  cycle : c'.cycle = c.cycle
  files : c'.files = c.files.filter (·.path.among keep)
  stagedFiles : c'.stagedFiles = c.stagedFiles.filter (·.path.among keep)
  size : c'.size = c'.files.length
  position : ∀ id, c'.position? id = (c'.files.map SourceFile.id).idxOf? id
  kept : ∀ p : Path, p.normalize.among keep = true →
    c'.get? p = c.get? p ∧ c'.contains p = c.contains p ∧ c'.hasChanged p = c.hasChanged p ∧
      c'.isStaged p = c.isStaged p
  keptId : ∀ e ∈ c.entries, e.path.among keep = true →
    c'.file? e.id = c.file? e.id ∧ c'.stagedFile? e.id = c.stagedFile? e.id ∧
      ∀ s : Span, s.file = e.id → c'.locate? s = c.locate? s
  unknown : ∀ p : Path, p.normalize.among keep = false →
    c'.get? p = none ∧ c'.contains p = false ∧ c'.hasChanged p = false ∧
      c'.isStaged p = false ∧ c'.markExternal p = (false, c')
  unknownId : ∀ e ∈ c.entries, e.path.among keep = false →
    c'.file? e.id = none ∧ c'.stagedFile? e.id = none ∧ c'.position? e.id = none ∧
      ∀ s : Span, s.file = e.id → c'.locate? s = none

section
variable {c : Cache} (h : c.Sound) {keep : List Path}
include h

theorem Sound.entry?_kept {e : Entry} (he : e ∈ c.entries) (hp : e.path.among keep = true) :
    Cache.entry? (c.prune keep).2 e.id = some (c.spare keep e) := by
  rw [h.entry?_prune keep, h.entry?_of_mem he]
  simp [Option.filter, hp]

theorem Sound.entry?_unknown {e : Entry} (he : e ∈ c.entries) (hp : e.path.among keep = false) :
    Cache.entry? (c.prune keep).2 e.id = none := by
  rw [h.entry?_prune keep, h.entry?_of_mem he]
  simp [Option.filter, hp]

theorem Sound.forgets (keep : List Path) : c.Forgets keep (c.prune keep).2 where
  entries := by
    rw [h.prune_eq keep]
    simp only [pruned, List.map_map]
    rfl
  nextId := by rw [h.prune_eq keep]; rfl
  cycle := h.cycle_prune
  files := h.files_prune keep
  stagedFiles := h.stagedFiles_prune keep
  size := by rw [size, ← (h.prune keep).files_id, List.length_map]
  position id := by rw [(h.prune keep).position?_eq, (h.prune keep).files_id]
  kept p hp := by
    rw [h.get?_prune, h.contains_prune, h.hasChanged_prune, h.isStaged_prune, hp]
    exact ⟨rfl, rfl, rfl, rfl⟩
  keptId e he hp := by
    have hentry := h.entry?_kept he hp
    unfold stagedFile? locate? file?
    rw [hentry, h.entry?_of_mem he]
    refine ⟨rfl, ?_, ?_⟩
    · cases hs : e.staged <;> simp [Option.filter, spare, hs, Entry.next]
    · rintro s hs
      rw [hs, hentry, h.entry?_of_mem he]
      rfl
  unknown p hp := by
    have hlookup : (c.prune keep).2.lookup? p = none := by
      rw [h.lookup?_prune, hp]
      rfl
    rw [h.get?_prune, h.contains_prune, h.hasChanged_prune, h.isStaged_prune, hp,
      Cache.markExternal, hlookup]
    exact ⟨rfl, rfl, rfl, rfl, rfl⟩
  unknownId e he hp := by
    have hentry := h.entry?_unknown he hp
    unfold stagedFile? position? locate? file?
    rw [hentry]
    refine ⟨rfl, rfl, rfl, ?_⟩
    rintro s hs
    rw [hs, hentry]
    rfl

end

/-- Calls that stage kept paths lead from a cache and from what a prune leaves of it to states
with the same events but the prune, and the same staged files but the forgotten ones. -/
theorem Follows.stageCalls {c c' : Cache} {h h' : History} {keep : List Path} (hc : c.Follows h)
    (hc' : c'.Follows h') (hforgets : h.Forgets keep h') {calls : List StagingCall}
    (hcalls : ∀ call ∈ calls, call.Among keep) :
    ∃ after after' : History, (c.stageCalls calls).Follows after ∧
      (c'.stageCalls calls).Follows after' ∧ after.Forgets keep after' := by
  induction calls generalizing c c' h h' with
  | nil => exact ⟨h, h', hc, hc', hforgets⟩
  | cons call calls ih =>
    have hrest : ∀ call ∈ calls, call.Among keep :=
      fun call hcall => hcalls call (List.mem_cons_of_mem _ hcall)
    have hcall := hcalls call List.mem_cons_self
    cases call with
    | upsert p content =>
      exact ih (hc.upsert p content) (hc'.upsert p content) (hforgets.upsert hcall content) hrest
    | markExternal p => exact ih (hc.markExternal p) (hc'.markExternal p) hforgets hrest

end Cache

end IncrementalBuild
