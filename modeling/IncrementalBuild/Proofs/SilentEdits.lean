import IncrementalBuild.Proofs.Rebuild
/-!
# Silent edits

A content is noticed by its hash. When a cycle has one content of a file and the next cycle has
another one with the same hash, which was staged after a third, then the file counts as unchanged,
and the pass-through compiler repeats what it made of the first content.
-/
namespace IncrementalBuild.Session

/-- Nothing is discovered if the only file that is staged refers to nothing. -/
theorem discover_alone {σ : Type} (loader : Loader) {s : Session σ} {f : SourceFile}
    (hfile : s.cache.stagedFiles = [f]) (hfind : s.cache.stagedFile? f.id = some f)
    (hrefs : f.references = []) : (s.discover loader).cache = s.cache := by
  have hsearch : ∀ readFiles queue,
      Discovery.search loader readFiles ⟨s.cache, queue, .empty, 0⟩ f.id =
        ⟨s.cache, queue, .empty, 0⟩ := by
    intro readFiles queue
    unfold Discovery.search
    simp only [hfind, hrefs, List.filter_nil, List.foldl_nil]
  unfold discover stageExternals
  rw [hfile]
  simp only [List.map_cons, List.map_nil, List.length_singleton, Nat.add_comm 1, Discovery.run,
    hsearch]
  cases loader.files.length <;> rfl

theorem addSource_eq {σ : Type} (s : Session σ) (p : Path) (content : Text) :
    (s.addSource p content).2 = { s with cache := (s.cache.stage p content).2 } := rfl

/-! ## A session with one file -/

/-- The only file, with a content and a version. -/
def onlyFile (content : Text) (version : Nat) : SourceFile :=
  .ofContent 0 "/p/a.ts" content version

/-- A new session, in which a content of the file is staged. -/
def started (first : Text) : Session Memo :=
  ((Session.new (BuildConfiguration.of "/p/project.json" .empty .initial) Memo.empty).addSource
    "/p/a.ts" first).2

/-- The session after a cycle. -/
def cycled (first : Text) : Session Memo :=
  ((started first).reset PassThrough.compiler .empty (.pair Shelf.outlet Shelf.outlet)
    (.empty, .empty)).2.1

/-- The session after a cycle and two edits of the file. -/
def edited (first between last : Text) : Session Memo :=
  (((cycled first).addSource "/p/a.ts" between).2.addSource "/p/a.ts" last).2

/-- The entry of the file after the cycle, with the content that is staged since. -/
def cycledEntry (first : Text) (pending : Option SourceFile) : Entry :=
  { file := onlyFile first 1
    pending
    external := false
    committed := some (ContentHash.ofText first)
    staged := pending.isSome
    rank := some 0
    changedIn := 1 }

/-- The cache after the cycle, with the content that is staged since. -/
def cycledCache (first : Text) (pending : Option SourceFile) : Cache :=
  { entries := [cycledEntry first pending]
    nextId := 1
    staged := if pending.isSome then [0] else []
    members := [0]
    cycle := 1
    retired := []
    checkpoint := some (started first).cache.save }

theorem stage_cycled (first : Text) (pending : Option SourceFile) (content : Text) :
    ((cycledCache first pending).stage "/p/a.ts" content).2 = Cache.enlist
      { cycledCache first pending with
        entries := [(cycledEntry first pending).stage content] } 0 := rfl

/-- What the compiler remembers of the cycle. -/
def cycledMemo (first : Text) : Memo :=
  ⟨[("/p/a.ts", PassThrough.analyze (onlyFile first 1) false)], ["/p/a.ts"]⟩

section
variable {first between last : Text} (hfirst : (onlyFile first 1).references = [])
  (hbetween : ContentHash.ofText between ≠ ContentHash.ofText first)
  (hlast : ContentHash.ofText last = ContentHash.ofText first)

/-! ## The first cycle -/

section
include hfirst

theorem discover_started : ((started first).discover .empty).cache = (started first).cache :=
  discover_alone .empty (f := onlyFile first 1) rfl rfl hfirst

theorem compiled_started : (started first).compiled PassThrough.compiler .empty =
    (.ok (PassThrough.collect [PassThrough.analyze (onlyFile first 1) false]),
      cycledMemo first) := by
  unfold compiled
  rw [discover_started hfirst]
  rfl

theorem cycled_eq : (cycled first).cache = cycledCache first none ∧
    (cycled first).compilerState = cycledMemo first ∧
    (cycled first).config = (started first).config := by
  have hcompiled := compiled_started hfirst
  obtain ⟨output, o', hreset⟩ := reset_of_accepts (congrArg Prod.fst hcompiled)
    Outlets.shelves_accept
  have hcache : (started first).cache.commit = cycledCache first none := rfl
  unfold cycled
  rw [hreset, hcompiled, completes, discover_started hfirst, hcache]
  exact ⟨rfl, rfl, rfl⟩

end

/-! ## The edits -/

include hbetween

theorem stage_between : ((cycledCache first none).stage "/p/a.ts" between).2 =
    cycledCache first (some (onlyFile between 2)) := by
  have hstage : (cycledEntry first none).stage between =
      { cycledEntry first none with pending := some (onlyFile between 2) } := by
    unfold Entry.stage
    exact if_neg hbetween
  rw [stage_cycled, hstage]
  rfl

include hlast

theorem stage_last : ((cycledCache first (some (onlyFile between 2))).stage "/p/a.ts" last).2 =
    cycledCache first (some (onlyFile last 3)) := by
  have hreplace : (onlyFile between 2).replaceContent last = onlyFile last 3 := by
    unfold SourceFile.replaceContent
    exact if_neg fun heq => hbetween (heq.symm.trans hlast)
  have hstage : (cycledEntry first (some (onlyFile between 2))).stage last =
      { cycledEntry first (some (onlyFile between 2)) with pending := some (onlyFile last 3) } := by
    rw [← hreplace]
    rfl
  rw [stage_cycled, hstage]
  rfl

include hfirst

theorem edited_eq : (edited first between last).cache = cycledCache first (some (onlyFile last 3)) ∧
    (edited first between last).compilerState = cycledMemo first ∧
    (edited first between last).config = (started first).config := by
  obtain ⟨hcache, hmemo, hconfig⟩ := cycled_eq hfirst
  rw [edited, addSource_eq, addSource_eq]
  dsimp only
  rw [hcache, stage_between hbetween, stage_last hbetween hlast]
  exact ⟨rfl, hmemo, hconfig⟩

/-! ## The second cycle -/

omit hfirst hbetween in
theorem changes_edited :
    (cycledCache first (some (onlyFile last 3))).changes.contains "/p/a.ts" = false := by
  have hverdict : (cycledEntry first (some (onlyFile last 3))).verdict = .unchanged := by
    unfold Entry.verdict
    exact if_neg (not_not.mpr hlast.symm)
  have hstaged : (cycledCache first (some (onlyFile last 3))).staged.filterMap
      (Cache.entry? (cycledCache first (some (onlyFile last 3)))) =
        [cycledEntry first (some (onlyFile last 3))] := rfl
  unfold Cache.changes
  simp only [hstaged, List.filter_cons, hverdict]
  rfl

omit hfirst hbetween in
theorem recalls_edited : PassThrough.Recalls false { cycledMemo first with analyzed := [] }
    (onlyFile last 3) (PassThrough.analyze (onlyFile first 1) false) := by
  have hhash : (onlyFile first 1).hash = (onlyFile last 3).hash := hlast.symm
  constructor
  · rfl
  · simp only [PassThrough.fits, PassThrough.analyze, hhash, beq_self_eq_true, Bool.and_true]
    rfl

variable (hrefs : (onlyFile last 3).references = [])
include hrefs

theorem discover_edited : ((edited first between last).discover .empty).cache =
    cycledCache first (some (onlyFile last 3)) := by
  have hcache := (edited_eq hfirst hbetween hlast).1
  rw [discover_alone .empty (f := onlyFile last 3) (by rw [hcache]; rfl) (by rw [hcache]; rfl)
    hrefs, hcache]

theorem compiled_edited : ((edited first between last).compiled PassThrough.compiler .empty).1 =
    .ok (PassThrough.collect [PassThrough.analyze (onlyFile first 1) false]) := by
  have hfiles : (cycledCache first (some (onlyFile last 3))).commit.files = [onlyFile last 3] := rfl
  have hunchanged : ∀ f ∈ [onlyFile last 3],
      (cycledCache first (some (onlyFile last 3))).changes.contains f.path = false := by
    intro f hf
    rw [List.mem_singleton.mp hf]
    exact changes_edited hlast
  have hconsult := PassThrough.consultAll_of_recalls _ false (.cons (recalls_edited hlast) .nil)
    hunchanged
  have htarget : Compile.targetFault? (started first).config.options.target = none := rfl
  have hdeclaration : (started first).config.options.declaration = false := rfl
  obtain ⟨_, hmemo, hconfig⟩ := edited_eq hfirst hbetween hlast
  unfold compiled PassThrough.compiler
  rw [discover_edited hfirst hbetween hlast hrefs, hmemo, hconfig]
  dsimp only
  unfold PassThrough.compile
  rw [htarget]
  dsimp only
  rw [hfiles, hdeclaration, hconsult]

/-- The second cycle has the last content, and what the compiler gives for it is what it made of
the first content. -/
theorem reset_edited : ∃ output s' o',
    (edited first between last).reset PassThrough.compiler .empty
      (.pair Shelf.outlet Shelf.outlet) (.empty, .empty) = (.ok output, s', o') ∧
    s'.cache.files = [onlyFile last 3] ∧
    ((edited first between last).compiled PassThrough.compiler .empty).1 =
      .ok (PassThrough.collect [PassThrough.analyze (onlyFile first 1) false]) := by
  have hcompiled := compiled_edited hfirst hbetween hlast hrefs
  obtain ⟨output, o', hreset⟩ := reset_of_accepts hcompiled Outlets.shelves_accept
  have hfiles : ((edited first between last).discover .empty).cache.commit.files =
      [onlyFile last 3] := by
    rw [discover_edited hfirst hbetween hlast hrefs]
    rfl
  exact ⟨output, _, o', hreset, hfiles, hcompiled⟩

end

end IncrementalBuild.Session
