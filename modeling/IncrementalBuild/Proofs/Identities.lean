import IncrementalBuild.Proofs.ReachableCaches
/-!
# Ids over a run

Over a whole run an id stands for one path, also when the path was forgotten since, and a path
keeps its id until it is forgotten.
-/
namespace IncrementalBuild

/-- The files of an entry: the committed one, and the staged one beside it if there is one. -/
def Entry.files (e : Entry) : List SourceFile := e.file :: e.pending.toList

theorem Entry.Sound.name_of_mem_files {e : Entry} (h : e.Sound) {f : SourceFile}
    (hf : f ∈ e.files) : f.id = e.id ∧ f.path = e.path := by
  rcases List.mem_cons.mp hf with rfl | hf
  · exact ⟨rfl, rfl⟩
  · exact (h.pending f (Option.mem_toList.mp hf)).2

theorem Entry.Sound.made_of_mem_files {e : Entry} (h : e.Sound) {f : SourceFile}
    (hf : f ∈ e.files) : f.Made := by
  rcases List.mem_cons.mp hf with rfl | hf
  · exact h.file
  · exact (h.pending f (Option.mem_toList.mp hf)).1

namespace Cache

/-- The id that a path stands under. -/
def idOf? (c : Cache) (p : Path) : Option FileId := (c.entries.find? (·.path == p)).map Entry.id

section
variable {c : Cache} (h : c.WellFormed)
include h

theorem WellFormed.idOf?_eq_some_iff {p : Path} {id : FileId} :
    c.idOf? p = some id ↔ ∃ e ∈ c.entries, e.path = p ∧ e.id = id := by
  unfold idOf?
  rw [Option.map_eq_some_iff]
  constructor
  · rintro ⟨e, hfind, hid⟩
    obtain ⟨he, hp⟩ := (find?_key_eq_some_iff h.paths).mp hfind
    exact ⟨e, he, hp, hid⟩
  · rintro ⟨e, he, hp, hid⟩
    exact ⟨e, (find?_key_eq_some_iff h.paths).mpr ⟨he, hp⟩, hid⟩

end

end Cache

/-! ## What an operation does to ids and paths -/

/-- Whether an operation keeps a path. Only a prune forgets any. -/
def CacheStep.Spares (p : Path) : CacheStep → Prop
  | .prune keep => p.among keep = true
  | _ => True

namespace Cache

/-- An operation changes entries under their names, adds one under the next id, or forgets some. -/
theorem Sound.apply_cases {c : Cache} (h : c.Sound) (s : CacheStep) :
    (∃ g : Entry → Entry, (c.apply s).entries = c.entries.map g ∧
      (∀ e ∈ c.entries, (g e).id = e.id ∧ (g e).path = e.path) ∧
      (c.apply s).nextId = c.nextId) ∨
    (∃ new : Entry, (c.apply s).entries = c.entries ++ [new] ∧ new.id = c.nextId ∧
      (c.apply s).nextId = c.nextId + 1) ∨
    (∃ (keep : List Path) (g : Entry → Entry), s = .prune keep ∧
      (c.apply s).entries = (c.entries.filter (·.path.among keep)).map g ∧
      (∀ e : Entry, (g e).id = e.id ∧ (g e).path = e.path) ∧
      (c.apply s).nextId = c.nextId) := by
  cases s with
  | upsert p content =>
    simp only [Cache.apply]
    obtain ⟨e, _, _, _, heq⟩ | ⟨_, _, heq⟩ := h.stage_cases p content
    · rw [heq]
      have hkeeps := Entry.Keeps.changeAt (Entry.restage_keeps content) e.id
      exact Or.inl ⟨_, rfl, fun x _ => (hkeeps x).name, rfl⟩
    · rw [heq]
      exact Or.inr (Or.inl ⟨_, rfl, rfl, rfl⟩)
  | markExternal p =>
    simp only [Cache.apply]
    obtain ⟨e, _, _, heq⟩ | ⟨_, heq⟩ := h.markExternal_cases p
    · rw [heq]
      have hkeeps := Entry.Keeps.changeAt (Entry.setExternal_keeps true) e.id
      exact Or.inl ⟨_, rfl, fun x _ => (hkeeps x).name, rfl⟩
    · rw [heq]
      exact Or.inl ⟨id, (List.map_id _).symm, fun _ _ => ⟨rfl, rfl⟩, rfl⟩
  | reset => exact Or.inl ⟨_, c.commit_entries, fun _ he => h.commitEntry_name he, rfl⟩
  | rollback =>
    simp only [Cache.apply]
    cases hk : c.checkpoint with
    | none =>
      rw [rollback_of_none hk]
      exact Or.inl ⟨id, (List.map_id _).symm, fun _ _ => ⟨rfl, rfl⟩, rfl⟩
    | some k =>
      rw [h.rollback_eq hk]
      exact Or.inl ⟨_, rfl, fun _ he => h.bringBack_name (h.checkpoint k hk) he, rfl⟩
  | prune keep =>
    simp only [Cache.apply, h.prune_eq keep]
    exact Or.inr (Or.inr ⟨keep, _, rfl, rfl, fun _ => ⟨rfl, rfl⟩, rfl⟩)

/-- Every file of `c'` under an id that `c` has given out is a file of `c` with this path. -/
structure Descends (c c' : Cache) : Prop where
  next : c.nextId ≤ c'.nextId
  names : ∀ e' ∈ c'.entries, e'.id < c.nextId → ∃ e ∈ c.entries, e.id = e'.id ∧ e.path = e'.path

theorem Descends.refl (c : Cache) : c.Descends c :=
  ⟨Nat.le_refl _, fun e he _ => ⟨e, he, rfl, rfl⟩⟩

theorem Descends.trans {a b c : Cache} (h : a.Descends b) (h' : b.Descends c) : a.Descends c := by
  refine ⟨Nat.le_trans h.next h'.next, fun e'' he'' hid => ?_⟩
  obtain ⟨e', he', hid', hp'⟩ := h'.names e'' he'' (Nat.lt_of_lt_of_le hid h.next)
  obtain ⟨e, he, heid, hp⟩ := h.names e' he' (hid' ▸ hid)
  exact ⟨e, he, heid.trans hid', hp.trans hp'⟩

section
variable {c : Cache} (h : c.Sound)
include h

theorem Sound.descends_apply (s : CacheStep) : c.Descends (c.apply s) := by
  rcases h.apply_cases s with ⟨g, hentries, hg, hnext⟩ | ⟨new, hentries, hid, hnext⟩ |
    ⟨keep, g, _, hentries, hg, hnext⟩
  · refine ⟨hnext.ge, fun e' he' _ => ?_⟩
    rw [hentries] at he'
    obtain ⟨e, he, rfl⟩ := List.mem_map.mp he'
    exact ⟨e, he, (hg e he).1.symm, (hg e he).2.symm⟩
  · refine ⟨hnext ▸ Nat.le_succ _, fun e' he' hlt => ?_⟩
    rw [hentries] at he'
    rcases List.mem_append.mp he' with he | he
    · exact ⟨e', he, rfl, rfl⟩
    · rw [List.mem_singleton.mp he, hid] at hlt
      exact absurd hlt (Nat.lt_irrefl _)
  · refine ⟨hnext.ge, fun e' he' _ => ?_⟩
    rw [hentries] at he'
    obtain ⟨e, he, rfl⟩ := List.mem_map.mp he'
    exact ⟨e, (List.mem_filter.mp he).1, (hg e).1.symm, (hg e).2.symm⟩

theorem Sound.descends_foldl (steps : List CacheStep) : c.Descends (steps.foldl Cache.apply c) := by
  induction steps generalizing c with
  | nil => exact Descends.refl c
  | cons s steps ih => exact (h.descends_apply s).trans (ih (h.apply s))

theorem Sound.spares_apply {s : CacheStep} {e : Entry} (he : e ∈ c.entries)
    (hs : s.Spares e.path) :
    ∃ e' ∈ (c.apply s).entries, e'.id = e.id ∧ e'.path = e.path := by
  rcases h.apply_cases s with ⟨g, hentries, hg, _⟩ | ⟨new, hentries, _, _⟩ |
    ⟨keep, g, rfl, hentries, hg, _⟩
  · exact ⟨g e, hentries ▸ List.mem_map_of_mem he, hg e he⟩
  · exact ⟨e, hentries ▸ List.mem_append_left _ he, rfl, rfl⟩
  · exact ⟨g e, hentries ▸ List.mem_map_of_mem (List.mem_filter.mpr ⟨he, hs⟩), hg e⟩

theorem Sound.spares_foldl {steps : List CacheStep} {e : Entry} (he : e ∈ c.entries)
    (hs : ∀ s ∈ steps, s.Spares e.path) :
    ∃ e' ∈ (steps.foldl Cache.apply c).entries, e'.id = e.id ∧ e'.path = e.path := by
  induction steps generalizing c e with
  | nil => exact ⟨e, he, rfl, rfl⟩
  | cons s steps ih =>
    obtain ⟨e', he', hid', hp'⟩ := h.spares_apply he (hs s List.mem_cons_self)
    obtain ⟨e'', he'', hid'', hp''⟩ := ih (h.apply s) he' fun t ht =>
      hp' ▸ hs t (List.mem_cons_of_mem s ht)
    exact ⟨e'', he'', hid''.trans hid', hp''.trans hp'⟩

end

theorem idOf?_unique (steps more : List CacheStep) {p q : Path} {id : FileId}
    (hp : (runSteps steps).idOf? p = some id) (hq : (runSteps (steps ++ more)).idOf? q = some id) :
    q = p := by
  have h := runSteps_sound steps
  have hmore := runSteps_sound (steps ++ more)
  obtain ⟨e, he, rfl, rfl⟩ := h.idOf?_eq_some_iff.mp hp
  obtain ⟨e', he', rfl, hid⟩ := hmore.idOf?_eq_some_iff.mp hq
  -- the later file is one of the earlier ones, and so it is this one
  have hdescends := h.descends_foldl more
  rw [← runSteps_append] at hdescends
  obtain ⟨x, hx, hxid, hxp⟩ := hdescends.names e' he' (hid ▸ h.fresh e he)
  rw [← hxp, h.eq_of_id hx he (hxid.trans hid)]

theorem idOf?_spared (steps more : List CacheStep) {p : Path} {id : FileId}
    (hp : (runSteps steps).idOf? p = some id) (hs : ∀ s ∈ more, s.Spares p) :
    (runSteps (steps ++ more)).idOf? p = some id := by
  have h := runSteps_sound steps
  obtain ⟨e, he, rfl, rfl⟩ := h.idOf?_eq_some_iff.mp hp
  obtain ⟨e', he', hid, hpath⟩ := h.spares_foldl he hs
  rw [(runSteps_sound (steps ++ more)).idOf?_eq_some_iff, runSteps_append]
  exact ⟨e', he', hpath, hid⟩

end Cache

end IncrementalBuild
