import IncrementalBuild.Proofs.ContentVersions
import IncrementalBuild.Proofs.Lifecycle
/-!
# The versions a compiler is shown

A compiler is shown the files of a cycle with their versions before it is known whether the cycle
comes through. If it does, the version of each file names its content in every later cycle,
whichever of them fail. If it fails, its rollback takes the versions of that cycle back along with
the files, and they are given out again.
-/
namespace IncrementalBuild

/-- An entry whose committed file is not below the version of a file is past the file without what
is staged. -/
theorem Entry.Past.unstage {e : Entry} {f : SourceFile} (h : e.Past f f.version)
    (external : Bool) :
    ({ e with staged := false, pending := none, external } : Entry).Past f f.version := by
  refine ⟨h.floor, h.floor, fun g hg => ?_⟩
  rcases mem_files.mp hg with rfl | hg
  · exact h.content e.file (mem_files.mpr (Or.inl rfl))
  · cases hg

namespace Cache

/-! ## Versions that are kept -/

/-- The version of a file names its content here. The committed file of its path is not below this
version, so a rollback cannot lead back to before it. -/
structure Fixes (c : Cache) (f : SourceFile) : Prop where
  sound : c.Sound
  rising : c.Rising
  past : c.Past f f.version

theorem Sound.fixes {c : Cache} (h : c.Sound) (hr : c.Rising) {f : SourceFile}
    (hf : f ∈ c.files) : c.Fixes f := by
  obtain ⟨e, he, _, rfl⟩ := h.mem_files.mp hf
  refine ⟨h, hr, fun x hx hpath => ?_, fun habsent => absurd rfl (habsent e he)⟩
  obtain rfl := h.eq_of_path hx he hpath
  exact .of_file (hr x hx)

theorem Fixes.onward {c c' : Cache} {f : SourceFile} (h : c.Fixes f) (hs : c'.Sound)
    (honward : c.Onward c') : c'.Fixes f :=
  ⟨hs, honward.rising, honward.past f f.version (Nat.le_succ _) h.past⟩

theorem Fixes.content_eq {c : Cache} {f : SourceFile} (h : c.Fixes f) {g : SourceFile}
    (hg : g ∈ c.files) (hpath : g.path = f.path) (hversion : g.version = f.version) :
    g.content = f.content := by
  obtain ⟨e, he, _, rfl⟩ := h.sound.mem_files.mp hg
  exact (h.past.entry e he hpath).content e.file (Entry.mem_files.mpr (Or.inl rfl)) hversion

theorem Stages.onward {contents : Set Text} {a b : Cache} (h : Stages contents a b)
    (ha : a.Sound) (hr : a.Rising) : a.Onward b := by
  induction h with
  | refl => exact hr.refl
  | stage h p _ ih => exact ih.trans ((h.sound ha).onward_stage ih.rising p _)
  | mark h p ih => exact ih.trans ((h.sound ha).onward_markExternal ih.rising p)

/-- A rollback drops all staged content, so none is left beside a file. -/
theorem rising_undo (c : Cache) (k : Checkpoint) : (c.undo k).Rising := by
  intro x hx
  obtain ⟨e, _, rfl⟩ := List.mem_map.mp hx
  refine .of_pending ?_
  unfold Checkpoint.bringBack
  split <;> rfl

/-- A reset and its rollback lead back to the committed files, and so to versions that are not
below those of a file they keep. -/
theorem Fixes.undo_commit {c : Cache} {f : SourceFile} (h : c.Fixes f) :
    (c.commit.undo c.save).Fixes f := by
  have hentries : (c.commit.undo c.save).entries =
      c.entries.map fun e => c.save.bringBack (c.commitEntry e) := List.map_map
  refine ⟨h.sound.commit.undo (h.sound.commit.checkpoint _ rfl), rising_undo _ _,
    fun x hx hpath => ?_, fun habsent => h.past.retired fun e he hpath => ?_⟩
  · rw [hentries] at hx
    obtain ⟨e, he, rfl⟩ := List.mem_map.mp hx
    obtain ⟨external, heq⟩ := h.sound.bringBack_commitEntry he
    rw [heq] at hpath ⊢
    exact (h.past.entry e he hpath).unstage external
  · obtain ⟨external, heq⟩ := h.sound.bringBack_commitEntry he
    refine habsent _ (hentries ▸ List.mem_map_of_mem he) ?_
    rw [heq]
    exact hpath

end Cache

/-! ## What a compiler is shown -/

/-- A call of the compiler: the sources that it is shown, and whether the cycle comes through. -/
structure Showing where
  sources : Cache
  completed : Bool

/-- Two calls see the same content of a path where they see the same version of it. -/
def Showing.Agrees (a b : Showing) : Prop :=
  ∀ f ∈ a.sources.files, ∀ g ∈ b.sources.files,
    g.path = f.path → g.version = f.version → g.content = f.content

instance (a b : Showing) : Decidable (a.Agrees b) :=
  inferInstanceAs (Decidable (∀ f ∈ a.sources.files, ∀ g ∈ b.sources.files,
    g.path = f.path → g.version = f.version → g.content = f.content))

namespace Session

variable {σ : Type}

/-- What an operation shows to the compiler. Only a reset calls it, and it does so after it has
committed the cycle. -/
def showing? (s : Session σ) : SessionStep σ → Option Showing
  | .reset compiler loader outlets o =>
    some ⟨(s.discover loader).cache.commit, (s.reset compiler loader outlets o).1.isOk⟩
  | _ => none

/-- What the operations of a run show to their compilers, in order. -/
def showings (s : Session σ) : List (SessionStep σ) → List Showing
  | [] => []
  | step :: rest => (s.showing? step).toList ++ (s.apply step).showings rest

/-! ## Versions over a run -/

section
variable {s : Session σ} (h : s.cache.Sound) (hr : s.cache.Rising)
include h hr

theorem discover_onward (loader : Loader) : s.cache.Onward (s.discover loader).cache :=
  (stageExternals_stages loader.within_univ _ s.cache).onward h hr

/-- An operation goes on from the versions that there are, or it is a reset that went on and was
then taken back. -/
theorem apply_onward (step : SessionStep σ) :
    s.cache.Onward (s.apply step).cache ∨ ∃ c : Cache, c.Sound ∧ s.cache.Onward c ∧
      (s.apply step).cache = c.commit.undo c.save := by
  cases step with
  | addSource p content => exact Or.inl (h.onward_stage hr p content)
  | loadSources loader => exact Or.inl ((loadSources_stages loader s).onward h hr)
  | prune => exact Or.inl (h.onward_prune hr _)
  | reset compiler loader outlets o =>
    have hd := discover_sound loader h
    have honward := discover_onward h hr loader
    simp only [apply]
    rcases reset_cases compiler loader outlets s o with ⟨output, o', _, heq⟩ | ⟨e, o', heq⟩
    · rw [heq]
      exact Or.inl (honward.trans (hd.onward_commit honward.rising))
    · rw [heq]
      exact Or.inr ⟨_, hd, honward, congrArg Prod.snd hd.rollback_commit⟩

theorem apply_rising (step : SessionStep σ) : (s.apply step).cache.Rising := by
  rcases apply_onward h hr step with honward | ⟨c, _, _, heq⟩
  · exact honward.rising
  · rw [heq]
    exact Cache.rising_undo _ _

/-- What a reset that comes through shows to the compiler is what it commits. -/
theorem showing?_completed {step : SessionStep σ} {a : Showing} (ha : s.showing? step = some a) :
    a.sources.Sound ∧ a.sources.Rising ∧
      (a.completed = true → (s.apply step).cache = a.sources) := by
  cases step with
  | reset compiler loader outlets o =>
    cases ha
    have hd := discover_sound loader h
    refine ⟨hd.commit, (hd.onward_commit (discover_onward h hr loader).rising).rising, ?_⟩
    simp only [apply]
    rcases reset_cases compiler loader outlets s o with ⟨output, o', _, heq⟩ | ⟨e, o', heq⟩
    · rw [heq]
      exact fun _ => rfl
    · rw [heq]
      exact fun hok => by cases hok
  | _ => cases ha

end

theorem apply_fixes {s : Session σ} {f : SourceFile} (h : s.cache.Fixes f)
    (step : SessionStep σ) : (s.apply step).cache.Fixes f := by
  rcases apply_onward h.sound h.rising step with honward | ⟨c, hc, honward, heq⟩
  · exact h.onward (apply_sound h.sound step) honward
  · rw [heq]
    exact (h.onward hc honward).undo_commit

/-- The version of a file that is fixed names its content whenever a compiler is called. -/
theorem showings_fixes {s : Session σ} {f : SourceFile} (h : s.cache.Fixes f)
    (steps : List (SessionStep σ)) :
    ∀ b ∈ s.showings steps, ∀ g ∈ b.sources.files,
      g.path = f.path → g.version = f.version → g.content = f.content := by
  induction steps generalizing s with
  | nil => exact fun _ hb => absurd hb List.not_mem_nil
  | cons step steps ih =>
    intro b hb g hg
    rcases List.mem_append.mp hb with hb | hb
    · cases step with
      | reset compiler loader outlets o =>
        cases Option.mem_toList.mp hb
        have hd := discover_sound loader h.sound
        have hfixes := h.onward hd (discover_onward h.sound h.rising loader)
        exact (hfixes.onward hd.commit (hd.onward_commit hfixes.rising)).content_eq hg
      | _ => cases Option.mem_toList.mp hb
    · exact ih (apply_fixes h step) b hb g hg

/-- In any run, of which any resets may fail, what a cycle that came through showed to the compiler
under a path and a version is what every later cycle shows under them. -/
theorem showings_agree (config : BuildConfiguration) (initial : σ)
    (steps : List (SessionStep σ)) :
    ((Session.new config initial).showings steps).Pairwise
      fun a b => a.completed = true → a.Agrees b := by
  have hall : ∀ s : Session σ, s.cache.Sound → s.cache.Rising →
      (s.showings steps).Pairwise fun a b => a.completed = true → a.Agrees b := by
    induction steps with
    | nil => exact fun _ _ _ => .nil
    | cons step steps ih =>
      intro s h hr
      have hrest := ih (s.apply step) (apply_sound h step) (apply_rising h hr step)
      rw [showings, List.pairwise_append]
      refine ⟨?_, hrest, fun a ha b hb hcompleted f hf => ?_⟩
      · cases s.showing? step with
        | none => exact .nil
        | some a => exact List.pairwise_singleton _ _
      · obtain ⟨hsound, hrising, heq⟩ := showing?_completed h hr (Option.mem_toList.mp ha)
        have hfixes := hsound.fixes hrising hf
        rw [← heq hcompleted] at hfixes
        exact showings_fixes hfixes steps b hb
  exact hall _ Cache.empty_sound fun _ he => absurd he List.not_mem_nil

/-- A run with a cycle that fails because its outlet is at its end. -/
def withdrawn : List (SessionStep Memo) :=
  let outlets := Outlets.pair Shelf.outlet Shelf.outlet
  [.addSource "/p/a.ts" "let a = 1;".toList,
    .reset PassThrough.compiler .empty outlets (.empty, .empty),
    .addSource "/p/a.ts" "let a = 2;".toList,
    .reset PassThrough.compiler .empty outlets (⟨[], true⟩, .empty),
    .addSource "/p/a.ts" "let a = 3;".toList,
    .reset PassThrough.compiler .empty outlets (.empty, .empty)]

/-- The cycle that fails shows a second version of the file. Its rollback takes this version back,
and the next cycle shows another content under it. -/
theorem withdrawn_disagree :
    ¬ ((Session.new (BuildConfiguration.of "/p/project.json" .empty .initial)
      Memo.empty).showings withdrawn).Pairwise Showing.Agrees := by
  decide +kernel

end Session

end IncrementalBuild
