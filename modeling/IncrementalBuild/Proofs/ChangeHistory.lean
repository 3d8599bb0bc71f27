import IncrementalBuild.Proofs.CommittedView
import IncrementalBuild.Proofs.StagedView
/-!
# Change sets against the history of a cache

What happened to a cache is kept as a history of its own, which knows no entries and no marks:
the cycles that stand with the files they committed, the prunes between them, and what is staged.
The change set of every reset is the difference between what is staged and the cycle before, read
off the history.
-/
namespace IncrementalBuild

inductive CacheStep where
  | upsert (p : Path) (content : Text)
  | markExternal (p : Path)
  | reset
  | rollback
  | prune (keep : List Path)

namespace Cache

def apply (c : Cache) : CacheStep → Cache
  | .upsert p content => (c.stage p content).2
  | .markExternal p => (c.markExternal p).2
  | .reset => c.reset.2
  | .rollback => c.rollback.2
  | .prune keep => (c.prune keep).2

def runSteps (steps : List CacheStep) : Cache := steps.foldl apply empty

end Cache

/-! ## Histories -/

/-- A reset that stands, with the paths and hashes it committed, or a prune. -/
inductive CacheEvent where
  | cycle (files : List (Path × ContentHash))
  | forget (keep : List Path)

/-- What happened to a cache: the events that stand, the latest first, what is staged since, and
whether the last cycle can be taken back. -/
structure History where
  events : List CacheEvent
  staged : List (Path × ContentHash)
  undoable : Bool

/-- What the next change set is compared with: the number of cycles that stand, the files of the
last of them, and whether one of them committed a path. -/
structure Standing where
  cycles : Nat
  latest : List (Path × ContentHash)
  committed : Path → Bool

namespace Standing

def none : Standing := ⟨0, [], fun _ => false⟩

def commit (b : Standing) (files : List (Path × ContentHash)) : Standing :=
  ⟨b.cycles + 1, files, fun p => decide (p ∈ files.map Prod.fst) || b.committed p⟩

/-- What stands after a prune. The files that are not kept count as never committed. -/
def forget (b : Standing) (keep : List Path) : Standing :=
  ⟨b.cycles, b.latest.filter (·.1.among keep), fun p => p.among keep && b.committed p⟩

/-- What events leave standing, the latest event first. -/
def of : List CacheEvent → Standing
  | [] => none
  | .cycle files :: past => (of past).commit files
  | .forget keep :: past => (of past).forget keep

end Standing

namespace History

def empty : History := ⟨[], [], false⟩

/-- What an operation adds to a history. A rollback takes the last cycle out of it, if nothing
but staging came after that cycle. -/
def step (h : History) : CacheStep → History
  | .upsert p content => { h with staged := put h.staged p.normalize (ContentHash.ofText content) }
  | .markExternal _ => h
  | .reset => ⟨.cycle h.staged :: h.events, [], true⟩
  | .rollback => if h.undoable then ⟨h.events.tail, [], false⟩ else h
  | .prune keep =>
    ⟨.forget keep :: h.events, h.staged.filter (·.1.among keep), false⟩

def of (steps : List CacheStep) : History := steps.foldl step empty

end History

/-- A change set is the difference between what is staged, in the order of staging, and what
stands. -/
structure Standing.Explains (b : Standing) (staged : List (Path × ContentHash))
    (cs : ChangeSet) : Prop where
  cycle : cs.cycle = b.cycles + 1
  added : cs.added = (staged.map Prod.fst).filter fun p => !b.committed p
  reappeared : cs.reappeared = (staged.map Prod.fst).filter fun p =>
    b.committed p && !decide (p ∈ b.latest.map Prod.fst)
  modified : cs.modified = (staged.filter fun f =>
    b.latest.any fun old => old.1 = f.1 ∧ old.2 ≠ f.2).map Prod.fst
  unchanged : cs.unchanged = (staged.filter fun f => f ∈ b.latest).map Prod.fst
  removed : cs.removed =
    (b.latest.map Prod.fst).filter fun p => !decide (p ∈ staged.map Prod.fst)
  once : (staged.map Prod.fst).Nodup
  each : (cs.added ++ cs.modified ++ cs.reappeared ++ cs.unchanged).Perm (staged.map Prod.fst)
  isEmpty : cs.isEmpty = true ↔
    cs.added = [] ∧ cs.modified = [] ∧ cs.reappeared = [] ∧ cs.removed = []
  contains : ∀ p, cs.contains p = (p.among cs.added || p.among cs.modified ||
    p.among cs.reappeared || p.among cs.removed)
  changed : cs.changed = cs.added ++ cs.modified ++ cs.reappeared
  dirtyCount : cs.dirtyCount = cs.changed.length

/-- What stands and what is staged leave no choice of the change set. -/
theorem Standing.Explains.unique {b : Standing} {staged : List (Path × ContentHash)}
    {cs cs' : ChangeSet} (h : b.Explains staged cs) (h' : b.Explains staged cs') : cs = cs' := by
  cases cs
  cases cs'
  rw [ChangeSet.mk.injEq]
  exact ⟨h.cycle.trans h'.cycle.symm, h.added.trans h'.added.symm,
    h.modified.trans h'.modified.symm, h.reappeared.trans h'.reappeared.symm,
    h.removed.trans h'.removed.symm, h.unchanged.trans h'.unchanged.symm⟩

/-! ## What the committed part of a cache tells -/

def SourceFile.mention (f : SourceFile) : Path × ContentHash := (f.path, f.hash)

theorem SourceFile.mention_unmarked : SourceFile.Unmarked mention := fun _ _ => rfl

/-- The committed part of a cache agrees with what stands. -/
structure CommittedView.Tells (v : CommittedView) (b : Standing) : Prop where
  cycle : v.cycle = b.cycles
  files : v.files.map SourceFile.mention = b.latest
  committed : ∀ p, p ∈ v.entries.map Entry.path ↔ b.committed p = true

/-- What stands by the committed part of a cache alone. -/
def CommittedView.standing (v : CommittedView) : Standing :=
  ⟨v.cycle, v.files.map SourceFile.mention, fun p => decide (p ∈ v.entries.map Entry.path)⟩

theorem CommittedView.tells (v : CommittedView) : v.Tells v.standing :=
  ⟨rfl, rfl, fun _ => decide_eq_true_iff.symm⟩

namespace Cache

theorem mem_view_path {c : Cache} {p : Path} :
    p ∈ c.view.entries.map Entry.path ↔
      ∃ e ∈ c.entries, e.committed.isSome ∧ e.path = p := by
  simp only [view, settle, List.map_map, List.mem_map, List.mem_filter]
  constructor
  · rintro ⟨e, ⟨he, hc⟩, hp⟩
    exact ⟨e, he, hc, hp⟩
  · rintro ⟨e, he, hc, hp⟩
    exact ⟨e, ⟨he, hc⟩, hp⟩

section
variable {c : Cache} (h : c.WellFormed) {b : Standing} (ht : c.view.Tells b)
  {e : Entry} (he : e ∈ c.entries)
include h ht

theorem WellFormed.mem_latest {p : Path} {hash : ContentHash} :
    (p, hash) ∈ b.latest ↔
      ∃ e ∈ c.entries, e.inCycle = true ∧ e.path = p ∧ e.file.hash = hash := by
  rw [← ht.files, ← h.files_eq, List.mem_map]
  constructor
  · rintro ⟨f, hf, hm⟩
    obtain ⟨e, he, hin, rfl⟩ := h.mem_files.mp hf
    obtain ⟨rfl, rfl⟩ := Prod.mk.inj hm
    exact ⟨e, he, hin, rfl, rfl⟩
  · rintro ⟨e, he, hin, rfl, rfl⟩
    exact ⟨e.file, h.mem_files.mpr ⟨e, he, hin, rfl⟩, rfl⟩

include he

theorem WellFormed.committed_iff :
    e.committed.isSome ↔ b.committed e.path = true := by
  rw [← ht.committed, mem_view_path]
  constructor
  · intro hc
    exact ⟨e, he, hc, rfl⟩
  · rintro ⟨x, hx, hc, hp⟩
    rwa [← h.eq_of_path hx he hp]

theorem WellFormed.mem_latest_of_mem {hash : ContentHash} :
    (e.path, hash) ∈ b.latest ↔ e.inCycle = true ∧ e.file.hash = hash := by
  rw [h.mem_latest ht]
  constructor
  · rintro ⟨x, hx, hin, hp, hh⟩
    rw [← h.eq_of_path hx he hp]
    exact ⟨hin, hh⟩
  · rintro ⟨hin, hh⟩
    exact ⟨e, he, hin, rfl, hh⟩

theorem WellFormed.mem_latest_path :
    e.path ∈ b.latest.map Prod.fst ↔ e.inCycle = true := by
  rw [List.mem_map]
  constructor
  · rintro ⟨⟨p, hash⟩, hm, rfl⟩
    exact ((h.mem_latest_of_mem ht he).mp hm).1
  · intro hin
    exact ⟨(e.path, e.file.hash), (h.mem_latest_of_mem ht he).mpr ⟨hin, rfl⟩, rfl⟩

end

/-! ## The verdicts -/

section
variable {c : Cache} (h : c.WellFormed) {b : Standing} (ht : c.view.Tells b)
  {e : Entry} (he : e ∈ c.entries)
include h ht he

theorem WellFormed.verdict_added :
    e.verdict = .added ↔ b.committed e.path = false := by
  rw [← Bool.not_eq_true, ← h.committed_iff ht he]
  unfold Entry.verdict
  cases e.committed with
  | none => simp
  | some hash => grind

theorem WellFormed.verdict_reappeared :
    e.verdict = .reappeared ↔ b.committed e.path = true ∧
      e.path ∉ b.latest.map Prod.fst := by
  rw [← h.committed_iff ht he, h.mem_latest_path ht he]
  unfold Entry.verdict
  cases e.committed with
  | none => simp
  | some hash => grind

theorem WellFormed.verdict_modified : e.verdict = .modified ↔
    ∃ old, (e.path, old) ∈ b.latest ∧ old ≠ e.next.hash := by
  have hmem : ∀ hash, (e.path, hash) ∈ b.latest ↔ e.inCycle = true ∧ e.file.hash = hash :=
    fun hash => h.mem_latest_of_mem ht he
  have hsound := h.entries e he
  unfold Entry.verdict
  cases hc : e.committed with
  | none => simp [hmem, hsound.outside_of_new hc]
  | some hash =>
    have := hsound.committed hash hc
    simp only [hmem]
    grind

theorem WellFormed.verdict_unchanged :
    e.verdict = .unchanged ↔ (e.path, e.next.hash) ∈ b.latest := by
  rw [h.mem_latest_of_mem ht he]
  have hsound := h.entries e he
  unfold Entry.verdict
  cases hc : e.committed with
  | none => simp [hsound.outside_of_new hc]
  | some hash =>
    have := hsound.committed hash hc
    grind

end

theorem perm_verdicts (es : List Entry) :
    (es.filter (·.verdict = .added) ++ es.filter (·.verdict = .modified) ++
      es.filter (·.verdict = .reappeared) ++ es.filter (·.verdict = .unchanged)).Perm es := by
  induction es with
  | nil => exact List.Perm.nil
  | cons e es ih =>
    cases hv : e.verdict with
    | added => simpa [hv] using ih
    | modified =>
      simp only [List.filter_cons, hv, decide_true, decide_false, reduceCtorEq, if_true,
        Bool.false_eq_true, if_false, List.append_assoc, List.cons_append] at ih ⊢
      exact List.perm_middle.trans (ih.cons e)
    | reappeared =>
      simp only [List.filter_cons, hv, decide_true, decide_false, reduceCtorEq, if_true,
        Bool.false_eq_true, if_false, List.append_assoc, List.cons_append] at ih ⊢
      rw [← List.append_assoc] at ih ⊢
      exact List.perm_middle.trans (ih.cons e)
    | unchanged =>
      simp only [List.filter_cons, hv, decide_true, decide_false, reduceCtorEq, if_true,
        Bool.false_eq_true, if_false] at ih ⊢
      exact List.perm_middle.trans (ih.cons e)

/-! ## The changes of a reset -/

section
variable {c : Cache} (h : c.WellFormed)
include h

theorem WellFormed.mention_eq :
    c.stagedFiles.map SourceFile.mention = c.stagedEntries.map fun e => (e.path, e.next.hash) := by
  rw [stagedFiles_eq, List.map_map]
  apply List.map_congr_left
  intro e he
  have hp := (h.entries e (h.mem_stagedEntries.mp he).1).next.2.2
  simp [SourceFile.mention, hp]

theorem WellFormed.mention_path :
    (c.stagedFiles.map SourceFile.mention).map Prod.fst = c.stagedEntries.map Entry.path := by
  rw [h.mention_eq, List.map_map]
  rfl

theorem WellFormed.nodup_mention : ((c.stagedFiles.map SourceFile.mention).map Prod.fst).Nodup := by
  rw [h.mention_path]
  have hids : (c.stagedEntries.map Entry.id).Nodup := h.stagedEntries_id ▸ h.stagedNodup
  refine (List.Nodup.of_map _ hids).map_on fun e he e' he' hp => ?_
  exact h.eq_of_path (h.mem_stagedEntries.mp he).1 (h.mem_stagedEntries.mp he').1 hp

/-- A list of staged paths with one verdict, picked by a test of the paths alone. -/
theorem WellFormed.verdict_paths {v : Verdict} {t : Path → Bool}
    (ht : ∀ e ∈ c.entries, e.verdict = v ↔ t e.path = true) :
    (c.stagedEntries.filter (·.verdict = v)).map Entry.path =
      ((c.stagedFiles.map SourceFile.mention).map Prod.fst).filter t := by
  rw [h.mention_path, List.filter_map]
  congr 1
  apply List.filter_congr
  intro e he
  rw [Bool.eq_iff_iff, decide_eq_true_iff]
  exact ht e (h.mem_stagedEntries.mp he).1

/-- A list of staged paths with one verdict, picked by a test of the paths and the hashes. -/
theorem WellFormed.verdict_files {v : Verdict} {t : Path × ContentHash → Bool}
    (ht : ∀ e ∈ c.entries, e.verdict = v ↔ t (e.path, e.next.hash) = true) :
    (c.stagedEntries.filter (·.verdict = v)).map Entry.path =
      ((c.stagedFiles.map SourceFile.mention).filter t).map Prod.fst := by
  rw [h.mention_eq, List.filter_map, List.map_map]
  congr 1
  apply List.filter_congr
  intro e he
  rw [Bool.eq_iff_iff, decide_eq_true_iff]
  exact ht e (h.mem_stagedEntries.mp he).1

theorem WellFormed.removed_eq {b : Standing} (ht : c.view.Tells b) : c.changes.removed =
    (b.latest.map Prod.fst).filter fun p =>
      !decide (p ∈ (c.stagedFiles.map SourceFile.mention).map Prod.fst) := by
  have hentry : ∀ e ∈ c.members.filterMap c.entry?, e ∈ c.entries := by
    intro e he
    obtain ⟨id, _, hid⟩ := List.mem_filterMap.mp he
    exact (h.entry?_eq_some_iff.mp hid).1
  have hmem : ∀ e ∈ c.entries, e.path ∈ (c.stagedFiles.map SourceFile.mention).map Prod.fst ↔
      e.staged = true := by
    intro e he
    rw [h.mention_path, ← h.stagedFiles_path, h.staged_path_iff he]
  rw [← ht.files, ← h.files_eq]
  generalize (c.stagedFiles.map SourceFile.mention).map Prod.fst = paths at hmem ⊢
  show ((c.members.filterMap c.entry?).filter (!·.staged)).map Entry.path = _
  unfold files
  rw [List.map_map, List.map_map, List.filter_map]
  congr 1
  apply List.filter_congr
  intro e he
  show (!e.staged) = !decide (e.path ∈ paths)
  simp [hmem e (hentry e he)]

/-- The changes that a reset reports are the difference between what is staged and what
stands. -/
theorem WellFormed.explains {b : Standing} (ht : c.view.Tells b) :
    b.Explains (c.stagedFiles.map SourceFile.mention) c.changes := by
  refine ⟨?_, ?_, ?_, ?_, ?_, h.removed_eq ht, h.nodup_mention, ?_, ?_, ?_, rfl, ?_⟩
  · exact congrArg (· + 1) ht.cycle
  · refine h.verdict_paths fun e he => ?_
    rw [h.verdict_added ht he]
    simp
  · refine h.verdict_paths fun e he => ?_
    rw [h.verdict_reappeared ht he]
    simp
  · refine h.verdict_files fun e he => ?_
    rw [h.verdict_modified ht he]
    simp
  · refine h.verdict_files fun e he => ?_
    rw [h.verdict_unchanged ht he]
    simp
  · rw [h.mention_path]
    have := (perm_verdicts c.stagedEntries).map Entry.path
    simp only [List.map_append] at this
    exact this
  · simp [ChangeSet.isEmpty, ChangeSet.dirty, ChangeSet.changed]
  · intro p
    simp [ChangeSet.contains, ChangeSet.dirty, ChangeSet.changed, Path.among, Bool.or_assoc]
  · simp [ChangeSet.dirtyCount, ChangeSet.changed, Nat.add_assoc]

/-- Caches with the same committed part and the same staged paths and hashes have the same
changes. -/
theorem WellFormed.changes_eq {c' : Cache} (h' : c'.WellFormed) (hv : c'.view = c.view)
    (hs : c'.stagedFiles.map SourceFile.mention = c.stagedFiles.map SourceFile.mention) :
    c'.changes = c.changes := by
  have hx := h.explains c.view.tells
  rw [← hs] at hx
  exact (h'.explains (hv ▸ c.view.tells)).unique hx

end

/-! ## Caches that follow a history -/

/-- A cache is in the state that a history leaves, and a rollback would leave it in the state
before the last event. -/
structure Follows (c : Cache) (h : History) : Prop extends c.Sound where
  tells : c.view.Tells (Standing.of h.events)
  staging : c.stagedFiles.map SourceFile.mention = h.staged
  undoable : c.checkpoint.isSome = h.undoable
  undone : ∀ k, c.checkpoint = some k →
    (c.undo k).view.Tells (Standing.of h.events.tail)

/-! ## Every operation follows -/

theorem settle_map_settle {entries : List Entry} {g : Entry → Entry}
    (hnew : ∀ e ∈ entries, e.committed = none → (g e).committed = none)
    (hg : ∀ e : Entry, (g e.settled).committed = (g e).committed ∧
      (g e.settled).settled = (g e).settled) :
    settle (entries.map g) = settle ((settle entries).map g) := by
  induction entries with
  | nil => rfl
  | cons e entries ih =>
    have ih := ih fun x hx => hnew x (List.mem_cons_of_mem e hx)
    have hne := hnew e List.mem_cons_self
    unfold settle at ih ⊢
    simp only [List.map_cons, List.filter_cons]
    cases hc : e.committed with
    | none => simpa [hne hc] using ih
    | some hash =>
      simp only [Option.isSome_some, if_true, List.map_cons, List.filter_cons, (hg e).1]
      split
      · rw [List.map_cons, List.map_cons, (hg e).2, ih]
      · exact ih

theorem Sound.view_undo {c : Cache} (h : c.Sound) {k : Checkpoint} (hk : k.Fits c) :
    (c.undo k).view = ⟨k.cycle, k.members, settle (c.view.entries.map k.bringBack)⟩ := by
  have hnew : ∀ e ∈ c.entries, e.committed = none → (k.bringBack e).committed = none := by
    intro e he hc
    unfold Checkpoint.bringBack
    split
    · next s hs =>
      have := (h.saved_fits hk he hs).touched
      simp [hc] at this
    · exact hc
  have hsettled : ∀ e : Entry, (k.bringBack e.settled).committed = (k.bringBack e).committed ∧
      (k.bringBack e.settled).settled = (k.bringBack e).settled := by
    intro e
    unfold Checkpoint.bringBack
    rw [show e.settled.id = e.id from rfl]
    split <;> exact ⟨rfl, rfl⟩
  exact congrArg (CommittedView.mk k.cycle k.members) (settle_map_settle hnew hsettled)

theorem Sound.view_undo_eq {c c' : Cache} (h : c.Sound) (h' : c'.Sound) (hv : c'.view = c.view)
    {k : Checkpoint} (hk : c.checkpoint = some k) (hk' : c'.checkpoint = some k) :
    (c'.undo k).view = (c.undo k).view := by
  rw [h.view_undo (h.checkpoint k hk), h'.view_undo (h'.checkpoint k hk'), hv]

theorem stage_checkpoint {c : Cache} (h : c.WellFormed) (p : Path) (content : Text) :
    (c.stage p content).2.checkpoint = c.checkpoint := by
  obtain ⟨e, _, _, _, heq⟩ | ⟨_, _, heq⟩ := h.stage_cases p content
  · rw [heq]
    rfl
  · rw [heq]
    rfl

theorem markExternal_checkpoint {c : Cache} (h : c.WellFormed) (p : Path) :
    (c.markExternal p).2.checkpoint = c.checkpoint := by
  obtain ⟨e, _, _, heq⟩ | ⟨_, heq⟩ := h.markExternal_cases p
  · rw [heq]
    rfl
  · rw [heq]

theorem Follows.of_view {c c' : Cache} {h : History} (hc : c.Follows h) (hs : c'.Sound)
    (hv : c'.view = c.view) (hk : c'.checkpoint = c.checkpoint)
    {staged : List (Path × ContentHash)}
    (hstaged : c'.stagedFiles.map SourceFile.mention = staged) :
    c'.Follows { h with staged } := by
  refine ⟨hs, hv ▸ hc.tells, hstaged, hk ▸ hc.undoable, fun k hk' => ?_⟩
  have hk := hk.symm.trans hk'
  exact hc.view_undo_eq hs hv hk hk' ▸ hc.undone k hk

theorem Follows.upsert {c : Cache} {h : History} (hc : c.Follows h) (p : Path) (content : Text) :
    (c.stage p content).2.Follows (h.step (.upsert p content)) := by
  obtain ⟨f, _, _, _, hash, hput⟩ := hc.stagedFiles_stage p content
  refine hc.of_view (hc.toSound.stage p content) (hc.view_stage p content)
    (stage_checkpoint hc.toWellFormed p content) ?_
  rw [← hc.staging, ← hash]
  exact hput SourceFile.hash

theorem Follows.markExternal {c : Cache} {h : History} (hc : c.Follows h) (p : Path) :
    (c.markExternal p).2.Follows (h.step (.markExternal p)) := by
  refine hc.of_view (hc.toSound.markExternal p) (hc.view_markExternal p)
    (markExternal_checkpoint hc.toWellFormed p) ?_
  rw [hc.stagedFiles_markExternal p SourceFile.mention_unmarked]
  exact hc.staging

/-- What is committed after a reset is what was committed or staged before it. -/
theorem Follows.commit {c : Cache} {h : History} (hc : c.Follows h) :
    c.commit.Follows (h.step .reset) := by
  refine ⟨hc.toSound.commit, ⟨?_, ?_, fun p => ?_⟩, rfl, rfl, fun k hk => ?_⟩
  · exact congrArg (· + 1) hc.tells.cycle
  · rw [← hc.toSound.commit.files_eq, hc.files_commit SourceFile.mention_unmarked]
    exact hc.staging
  -- a path was committed if it was staged just before the reset, or committed earlier
  · have hcommitted : ∀ e ∈ c.entries, (c.commitEntry e).committed.isSome ↔
        e.staged = true ∨ e.committed.isSome := by
      intro e he
      cases hs : e.staged with
      | true =>
        obtain ⟨rank, _, heq⟩ := hc.commitEntry_of_staged he hs
        simp [heq, Entry.commit]
      | false => simp [(hc.commitEntry_of_not_staged he hs).2]
    have hstaged : p ∈ h.staged.map Prod.fst ↔ ∃ e ∈ c.entries, e.staged = true ∧ e.path = p := by
      rw [← hc.mem_staged_path, ← hc.staging, List.map_map]
      rfl
    show _ ↔ (decide (p ∈ h.staged.map Prod.fst) || (Standing.of h.events).committed p) = true
    rw [Bool.or_eq_true, decide_eq_true_iff, hstaged, ← hc.tells.committed, mem_view_path,
      mem_view_path, commit_entries]
    simp only [List.mem_map]
    constructor
    · rintro ⟨_, ⟨e, he, rfl⟩, hce, hp⟩
      rw [(hc.commitEntry_name he).2] at hp
      rcases (hcommitted e he).mp hce with hs | hce
      · exact Or.inl ⟨e, he, hs, hp⟩
      · exact Or.inr ⟨e, he, hce, hp⟩
    · rintro (⟨e, he, hs, hp⟩ | ⟨e, he, hce, hp⟩)
      · exact ⟨_, ⟨e, he, rfl⟩, (hcommitted e he).mpr (Or.inl hs),
          (hc.commitEntry_name he).2.trans hp⟩
      · exact ⟨_, ⟨e, he, rfl⟩, (hcommitted e he).mpr (Or.inr hce),
          (hc.commitEntry_name he).2.trans hp⟩
  · cases hk
    rw [hc.view_undo_commit]
    exact hc.tells

theorem Follows.rollback {c : Cache} {h : History} (hc : c.Follows h) :
    c.rollback.2.Follows (h.step .rollback) := by
  unfold History.step
  rw [← hc.undoable]
  cases hk : c.checkpoint with
  | none =>
    rw [rollback_of_none hk]
    exact hc
  | some k =>
    rw [hc.rollback_eq hk]
    refine ⟨hc.toSound.undo (hc.checkpoint k hk), hc.undone k hk, rfl, rfl, fun k' hk' => ?_⟩
    simp [undo] at hk'

/-- A prune forgets the files it is not told to keep, and nothing else. -/
theorem Follows.prune {c : Cache} {h : History} (hc : c.Follows h) (keep : List Path) :
    (c.prune keep).2.Follows (h.step (.prune keep)) := by
  have hsound := hc.toSound.prune keep
  refine ⟨hsound, ⟨?_, ?_, fun p => ?_⟩, ?_, ?_, fun k hk => ?_⟩
  · rw [hc.prune_eq keep]
    exact hc.tells.cycle
  · rw [← hsound.files_eq, hc.toSound.files_prune keep]
    show _ = (Standing.of h.events).latest.filter (·.1.among keep)
    rw [← hc.tells.files, ← hc.files_eq, List.filter_map]
    rfl
  -- a path still counts as committed if it did so and is kept
  · rw [mem_view_path, hc.prune_eq keep]
    show _ ↔ (p.among keep && (Standing.of h.events).committed p) = true
    rw [Bool.and_eq_true, ← hc.tells.committed, mem_view_path]
    simp only [pruned, List.mem_map, List.mem_filter]
    constructor
    · rintro ⟨_, ⟨e, ⟨he, hk⟩, rfl⟩, hce, rfl⟩
      exact ⟨hk, e, he, hce, rfl⟩
    · rintro ⟨hk, e, he, hce, rfl⟩
      exact ⟨_, ⟨e, ⟨he, hk⟩, rfl⟩, hce, rfl⟩
  · rw [hc.toSound.stagedFiles_prune keep]
    simp only [History.step, ← hc.staging]
    rw [List.filter_map]
    rfl
  · rw [hc.prune_eq keep]
    rfl
  · rw [hc.prune_eq keep] at hk
    simp [pruned] at hk

theorem Follows.apply {c : Cache} {h : History} (hc : c.Follows h) (s : CacheStep) :
    (c.apply s).Follows (h.step s) := by
  cases s with
  | upsert p content => exact hc.upsert p content
  | markExternal p => exact hc.markExternal p
  | reset => exact hc.commit
  | rollback => exact hc.rollback
  | prune keep => exact hc.prune keep

theorem Follows.foldl {c : Cache} {h : History} (hc : c.Follows h) (steps : List CacheStep) :
    (steps.foldl Cache.apply c).Follows (steps.foldl History.step h) := by
  induction steps generalizing c h with
  | nil => exact hc
  | cons s steps ih => exact ih (hc.apply s)

theorem Follows.changes {c : Cache} {h : History} (hc : c.Follows h) :
    (Standing.of h.events).Explains h.staged c.changes := by
  rw [← hc.staging]
  exact hc.explains hc.tells

end Cache

end IncrementalBuild
