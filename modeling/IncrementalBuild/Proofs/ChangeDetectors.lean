import IncrementalBuild.Proofs.ReachableCaches
import Mathlib.Logic.Function.Basic
/-!
# Three ways to see a change

A cache tells of a change three times: when a content is staged, in the change set of the reset
that follows, and whenever it is asked whether a path changed. The first answer compares a hash,
the second sorts the staged files, and the third compares two cycle numbers, of which a rollback
gives one out again. They agree after any operations.
-/
namespace IncrementalBuild

/-! ## What a cache told -/

/-- A reset that stands, with the change set it returned, or a prune. -/
inductive CacheReport where
  | changes (cs : ChangeSet)
  | forget (keep : List Path)

namespace CacheReport

/-- Takes the change set of the last reset out of reports, the latest of which comes first. -/
def withdraw : List CacheReport → List CacheReport
  | [] => []
  | .changes _ :: past => past
  | .forget keep :: past => .forget keep :: withdraw past

/-- Whether the last change set lists a path as changed and no prune since then forgot it. -/
def lists (p : Path) : List CacheReport → Bool
  | [] => false
  | .changes cs :: _ => decide (p ∈ cs.changed)
  | .forget keep :: past => p.among keep && lists p past

end CacheReport

/-- A cache with what it told: of each path in normal form whether it differed when it was staged
last, and the reports, the latest first. -/
structure Transcript where
  cache : Cache
  flags : Path → Option Bool
  reports : List CacheReport

namespace Transcript

/-- Nothing was asked of an empty cache. -/
def empty : Transcript := ⟨Cache.empty, fun _ => none, []⟩

/-- An operation on the cache, with what it tells. -/
def step (t : Transcript) : CacheStep → Transcript
  | .upsert p content =>
    { t with
      cache := (t.cache.stage p content).2
      flags := Function.update t.flags p.normalize (some (t.cache.stage p content).1.changed) }
  | .markExternal p => { t with cache := (t.cache.markExternal p).2 }
  | .reset => { t with cache := t.cache.reset.2, reports := .changes t.cache.reset.1 :: t.reports }
  | .rollback =>
    { t with
      cache := t.cache.rollback.2
      reports := if t.cache.rollback.1 then CacheReport.withdraw t.reports else t.reports }
  | .prune keep => { t with cache := (t.cache.prune keep).2, reports := .forget keep :: t.reports }

def of (steps : List CacheStep) : Transcript := steps.foldl step empty

end Transcript

/-! ## Verdicts decide -/

theorem Entry.setExternal_verdict (e : Entry) (external : Bool) :
    (e.setExternal external).verdict = e.verdict := by
  have hkeeps := e.setExternal_keeps external
  obtain ⟨mark, hnext⟩ := Entry.setExternal_next (e := e) external
  unfold Entry.verdict Entry.inCycle
  rw [hkeeps.committed, hkeeps.rank, hnext]

theorem Entry.committed_of_unchanged {e : Entry} (hv : e.verdict = .unchanged) :
    e.committed.isSome := by
  unfold Entry.verdict at hv
  cases hc : e.committed with
  | none => simp [hc] at hv
  | some _ => rfl

namespace Cache

section
variable {c : Cache} (h : c.WellFormed)
include h

/-- A file differs from the committed cycle unless its verdict is that it is unchanged. -/
theorem WellFormed.differs_eq {e : Entry} (he : e ∈ c.entries) :
    c.differs e.id = decide (e.verdict ≠ .unchanged) := by
  unfold differs Entry.verdict
  rw [h.entry?_of_mem he, Option.any_some]
  cases hc : e.committed with
  | none => simp
  | some hash =>
    cases hin : e.inCycle with
    | false => simp
    | true => by_cases hh : hash = e.next.hash <;> simp [hh]

theorem WellFormed.mem_changed {p : Path} : p ∈ c.changes.changed ↔
    ∃ e ∈ c.entries, e.staged = true ∧ e.path = p ∧ e.verdict ≠ .unchanged := by
  have hpaths : ∀ v : Verdict, p ∈ ((c.staged.filterMap c.entry?).filter (·.verdict = v)).map
      Entry.path ↔ ∃ e ∈ c.entries, e.staged = true ∧ e.path = p ∧ e.verdict = v := by
    intro v
    simp only [List.mem_map, List.mem_filter, decide_eq_true_eq]
    constructor
    · rintro ⟨e, ⟨he, hv⟩, hp⟩
      obtain ⟨he, hs⟩ := h.mem_stagedEntries.mp he
      exact ⟨e, he, hs, hp, hv⟩
    · rintro ⟨e, he, hs, hp, hv⟩
      exact ⟨e, ⟨h.mem_stagedEntries.mpr ⟨he, hs⟩, hv⟩, hp⟩
  simp only [ChangeSet.changed, changes, List.mem_append, hpaths]
  constructor
  · rintro ((⟨e, he, hs, hp, hv⟩ | ⟨e, he, hs, hp, hv⟩) | ⟨e, he, hs, hp, hv⟩) <;>
      exact ⟨e, he, hs, hp, by simp [hv]⟩
  · rintro ⟨e, he, hs, hp, hv⟩
    cases hve : e.verdict with
    | added => exact Or.inl (Or.inl ⟨e, he, hs, hp, hve⟩)
    | modified => exact Or.inl (Or.inr ⟨e, he, hs, hp, hve⟩)
    | reappeared => exact Or.inr ⟨e, he, hs, hp, hve⟩
    | unchanged => exact absurd hve hv

/-- A staged path is listed as changed unless its entry has the verdict that it is unchanged. -/
theorem WellFormed.mem_changed_path {e : Entry} (he : e ∈ c.entries) :
    e.path ∈ c.changes.changed ↔ e.staged = true ∧ e.verdict ≠ .unchanged := by
  rw [h.mem_changed]
  constructor
  · rintro ⟨x, hx, hs, hp, hv⟩
    rw [← h.eq_of_path hx he hp]
    exact ⟨hs, hv⟩
  · rintro ⟨hs, hv⟩
    exact ⟨e, he, hs, rfl, hv⟩

/-! ## What staging touches -/

variable {p : Path} {content : Text} {x : Entry} (hx : x ∈ (c.stage p content).2.entries)
include hx

theorem WellFormed.mem_of_stage (hp : x.path ≠ p.normalize) : x ∈ c.entries := by
  obtain ⟨e, he, hep, _, heq⟩ | ⟨_, _, heq⟩ := h.stage_cases p content
  · rw [heq] at hx
    obtain ⟨y, hy, rfl⟩ := List.mem_map.mp hx
    by_cases hid : y.id = e.id
    · rw [h.eq_of_id hy he hid, Entry.changeAt_self, (e.restage_keeps content).path] at hp
      exact absurd hep hp
    · rwa [Entry.changeAt_of_ne hid]
  · rw [heq] at hx
    rcases List.mem_append.mp hx with hx | hx
    · exact hx
    · rw [List.mem_singleton.mp hx] at hp
      exact absurd rfl hp

theorem WellFormed.stage_id (hp : x.path = p.normalize) : (c.stage p content).1.id = x.id := by
  obtain ⟨e, he, hep, hid, heq⟩ | ⟨hnew, hid, heq⟩ := h.stage_cases p content
  · rw [heq] at hx
    obtain ⟨y, hy, rfl⟩ := List.mem_map.mp hx
    have hkeeps := Entry.Keeps.changeAt (Entry.restage_keeps content) e.id y
    rw [hid, hkeeps.id, h.eq_of_path hy he (hkeeps.path.symm.trans (hp.trans hep.symm))]
  · rw [heq] at hx
    rcases List.mem_append.mp hx with hx | hx
    · exact absurd hp (hnew x hx)
    · rw [hid, List.mem_singleton.mp hx]
      rfl

end

theorem Sound.stage_changed {c : Cache} (h : c.Sound) {p : Path} {content : Text} {x : Entry}
    (hx : x ∈ (c.stage p content).2.entries) (hp : x.path = p.normalize) :
    (c.stage p content).1.changed = decide (x.verdict ≠ .unchanged) := by
  rw [← (h.stage p content).differs_eq hx, ← h.stage_id hx hp]
  rfl

end Cache

/-! ## What the committed part answers -/

namespace CommittedView

def hasChanged (v : CommittedView) (p : Path) : Bool :=
  (v.lookup? p).any fun e => e.inCycle && e.changedIn == v.cycle

/-- A committed part answers as the reports say, and no file of it has the number of a cycle to
come. -/
structure Recalls (v : CommittedView) (reports : List CacheReport) : Prop where
  stamps : ∀ e ∈ v.entries, e.changedIn ≤ v.cycle
  changed : ∀ p, v.hasChanged p = CacheReport.lists p.normalize reports

end CommittedView

namespace Cache

theorem mem_view_entries {c : Cache} {e : Entry} :
    e ∈ c.view.entries ↔ ∃ x ∈ c.entries, x.committed.isSome ∧ x.settled = e := by
  simp only [view, settle, List.mem_map, List.mem_filter, and_assoc]

theorem WellFormed.hasChanged_eq {c : Cache} (h : c.WellFormed) (p : Path) :
    c.hasChanged p = c.view.hasChanged p :=
  h.any_lookup? (fun e => e.inCycle && e.changedIn == c.cycle)
    (fun _ hq => (Bool.and_eq_true_iff.mp hq).1) (fun _ => rfl) p

theorem changedIn_le {c : Cache} {reports : List CacheReport} (hr : c.view.Recalls reports)
    {e : Entry} (he : e ∈ c.entries) (hc : e.committed.isSome) : e.changedIn ≤ c.cycle :=
  hr.stamps e.settled (mem_view_entries.mpr ⟨e, he, hc, rfl⟩)

section
variable {c : Cache} (h : c.Sound) {reports : List CacheReport} (hr : c.view.Recalls reports)
include h hr

theorem Sound.commitEntry_changedIn_le {e : Entry} (he : e ∈ c.entries)
    (hc : (c.commitEntry e).committed.isSome) : (c.commitEntry e).changedIn ≤ c.cycle + 1 := by
  cases hs : e.staged with
  | false =>
    have heq := (h.commitEntry_of_not_staged he hs).2
    have hle : e.changedIn ≤ c.cycle := changedIn_le hr he (by rwa [heq] at hc)
    rw [heq]
    exact Nat.le_succ_of_le hle
  | true =>
    obtain ⟨rank, _, heq⟩ := h.commitEntry_of_staged he hs
    rw [heq]
    unfold Entry.commit
    dsimp only
    split
    · next hv => exact Nat.le_succ_of_le (changedIn_le hr he (Entry.committed_of_unchanged hv))
    · exact Nat.le_refl _

/-- After a reset an entry has the stamp of the new cycle if the reset listed its path. -/
theorem Sound.stamped_commit {e : Entry} (he : e ∈ c.entries) :
    ((c.commitEntry e).inCycle && (c.commitEntry e).changedIn == c.cycle + 1) =
      decide (e.path ∈ c.changes.changed) := by
  rw [Bool.eq_iff_iff, decide_eq_true_iff, h.mem_changed_path he]
  cases hs : e.staged with
  | false => simp [(h.commitEntry_of_not_staged he hs).2, Entry.inCycle]
  | true =>
    obtain ⟨rank, _, heq⟩ := h.commitEntry_of_staged he hs
    rw [heq]
    by_cases hv : e.verdict = .unchanged
    · -- an unchanged file keeps its stamp, which is of an earlier cycle
      have hle := changedIn_le hr he (Entry.committed_of_unchanged hv)
      have hne : e.changedIn ≠ c.cycle + 1 := by omega
      simp [Entry.commit, Entry.inCycle, hv, hne]
    · simp [Entry.commit, Entry.inCycle, hv]

theorem Sound.recalls_commit : c.commit.view.Recalls (.changes c.changes :: reports) := by
  refine ⟨fun e he => ?_, fun p => ?_⟩
  · obtain ⟨_, hcommitted, hc, rfl⟩ := mem_view_entries.mp he
    obtain ⟨x, hx, rfl⟩ := List.mem_map.mp hcommitted
    exact h.commitEntry_changedIn_le hr hx hc
  · rw [← h.commit.hasChanged_eq]
    show Option.any _ (c.commit.lookup? p) = decide (p.normalize ∈ c.changes.changed)
    have hlookup : c.commit.lookup? p = (c.lookup? p).map c.commitEntry :=
      find?_key_map (fun e he => (h.commitEntry_name he).2) p.normalize
    rw [hlookup]
    cases hl : c.lookup? p with
    | none =>
      have hnot : p.normalize ∉ c.changes.changed := by
        intro hin
        obtain ⟨e, he, _, hp, _⟩ := h.mem_changed.mp hin
        exact find?_key_eq_none_iff.mp hl e he hp
      simp [hnot]
    | some e =>
      obtain ⟨he, hp⟩ := h.lookup?_eq_some_iff.mp hl
      rw [← hp]
      exact h.stamped_commit hr he

/-- A prune takes the answers for the paths that are not kept, and leaves the others. -/
theorem Sound.recalls_prune (keep : List Path) :
    (c.prune keep).2.view.Recalls (.forget keep :: reports) := by
  refine ⟨fun e he => ?_, fun p => ?_⟩
  · obtain ⟨_, hspared, hc, rfl⟩ := mem_view_entries.mp he
    obtain ⟨x, hx, _, rfl⟩ := (h.mem_prune keep).mp hspared
    have hle : x.changedIn ≤ c.cycle := changedIn_le hr hx hc
    exact hle.trans_eq h.cycle_prune.symm
  · rw [← (h.prune keep).hasChanged_eq, h.hasChanged_prune, h.hasChanged_eq, hr.changed p]
    rfl

end

end Cache

/-! ## The three agree -/

namespace Transcript

/-- What a transcript says is what can be read off its cache: the flag of a staged path is the
verdict on its entry, and the committed part answers as the reports say, also after a rollback. -/
structure Faithful (t : Transcript) : Prop where
  sound : t.cache.Sound
  flags : ∀ e ∈ t.cache.entries, e.staged = true →
    t.flags e.path = some (decide (e.verdict ≠ .unchanged))
  shown : t.cache.view.Recalls t.reports
  undone : ∀ k, t.cache.checkpoint = some k →
    ∃ cs past, t.reports = .changes cs :: past ∧ (t.cache.undo k).view.Recalls past

theorem faithful_of_unstaged {c' : Cache} {flags : Path → Option Bool} (hs : c'.Sound)
    (hstaged : c'.staged = []) {reports : List CacheReport} (hshown : c'.view.Recalls reports)
    (hundone : ∀ k, c'.checkpoint = some k →
      ∃ cs past, reports = .changes cs :: past ∧ (c'.undo k).view.Recalls past) :
    Faithful ⟨c', flags, reports⟩ := by
  refine ⟨hs, fun e he hes => ?_, hshown, hundone⟩
  have hin := (hs.staged_iff he).mpr hes
  rw [hstaged] at hin
  exact absurd hin List.not_mem_nil

section
variable {t : Transcript} (h : t.Faithful)
include h

theorem Faithful.of_view {c' : Cache} {flags : Path → Option Bool} (hs : c'.Sound)
    (hv : c'.view = t.cache.view) (hk : c'.checkpoint = t.cache.checkpoint)
    (hflags : ∀ e ∈ c'.entries, e.staged = true →
      flags e.path = some (decide (e.verdict ≠ .unchanged))) :
    Faithful ⟨c', flags, t.reports⟩ := by
  refine ⟨hs, hflags, hv.symm ▸ h.shown, fun k hk' => ?_⟩
  have hk := hk.symm.trans hk'
  obtain ⟨cs, past, hreports, hundone⟩ := h.undone k hk
  exact ⟨cs, past, hreports, h.sound.view_undo_eq hs hv hk hk' ▸ hundone⟩

theorem Faithful.upsert (p : Path) (content : Text) : (t.step (.upsert p content)).Faithful := by
  refine h.of_view (h.sound.stage p content) (h.sound.view_stage p content)
    (Cache.stage_checkpoint h.sound.toWellFormed p content) fun x hx hs => ?_
  by_cases hp : x.path = p.normalize
  · rw [hp, Function.update_self, h.sound.stage_changed hx hp]
  · rw [Function.update_of_ne hp]
    exact h.flags x (h.sound.mem_of_stage hx hp) hs

theorem Faithful.markExternal (p : Path) : (t.step (.markExternal p)).Faithful := by
  refine h.of_view (h.sound.markExternal p) (h.sound.view_markExternal p)
    (Cache.markExternal_checkpoint h.sound.toWellFormed p) fun x hx hs => ?_
  obtain ⟨e, he, _, heq⟩ | ⟨_, heq⟩ := h.sound.markExternal_cases p
  · rw [heq] at hx
    obtain ⟨y, hy, rfl⟩ := List.mem_map.mp hx
    dsimp only at hs ⊢
    split at hs
    · next hid =>
      rw [if_pos hid, (y.setExternal_keeps true).path, y.setExternal_verdict true]
      exact h.flags y hy (Entry.setExternal_staged (e := y) true ▸ hs)
    · next hid =>
      rw [if_neg hid]
      exact h.flags y hy hs
  · exact h.flags x (heq ▸ hx) hs

theorem Faithful.reset : (t.step .reset).Faithful := by
  refine faithful_of_unstaged h.sound.commit rfl (h.sound.recalls_commit h.shown) fun k hk => ?_
  cases hk
  exact ⟨_, _, rfl, h.sound.view_undo_commit.symm ▸ h.shown⟩

theorem Faithful.rollback : (t.step .rollback).Faithful := by
  unfold step
  cases hk : t.cache.checkpoint with
  | none =>
    rw [Cache.rollback_of_none hk]
    exact h
  | some k =>
    obtain ⟨cs, past, hreports, hundone⟩ := h.undone k hk
    rw [h.sound.rollback_eq hk, hreports]
    have hundo := h.sound.undo (h.sound.checkpoint k hk)
    refine faithful_of_unstaged hundo rfl hundone fun k' hk' => ?_
    simp [Cache.undo] at hk'

theorem Faithful.prune (keep : List Path) : (t.step (.prune keep)).Faithful := by
  refine ⟨h.sound.prune keep, fun x hx hs => ?_, h.sound.recalls_prune h.shown keep,
    fun k hk => ?_⟩
  · obtain ⟨e, he, hk, rfl⟩ := (h.sound.mem_prune keep).mp hx
    have hverdict : (t.cache.spare keep e).verdict = e.verdict := by
      unfold Entry.verdict
      rw [h.sound.spare_inCycle he hk]
      rfl
    rw [hverdict]
    exact h.flags e he hs
  · have hnone : (t.cache.prune keep).2.checkpoint = none := by
      rw [h.sound.prune_eq keep]
      rfl
    cases hnone.symm.trans hk

theorem Faithful.step (s : CacheStep) : (t.step s).Faithful := by
  cases s with
  | upsert p content => exact h.upsert p content
  | markExternal p => exact h.markExternal p
  | reset => exact h.reset
  | rollback => exact h.rollback
  | prune keep => exact h.prune keep

theorem Faithful.foldl (steps : List CacheStep) : (steps.foldl Transcript.step t).Faithful := by
  induction steps generalizing t with
  | nil => exact h
  | cons s steps ih => exact ih (h.step s)

end

/-- The three ways to see a change agree. What was answered when a staged path was staged last is
whether a reset would list the path as changed. And a path is said to have changed if the change
set of the last reset that was not taken back lists it, and no prune since then forgot it. -/
structure Agrees (t : Transcript) : Prop where
  flag : ∀ p, t.cache.isStaged p = true →
    t.flags p.normalize = some (decide (p.normalize ∈ t.cache.reset.1.changed))
  hasChanged : ∀ p, t.cache.hasChanged p = CacheReport.lists p.normalize t.reports

theorem Faithful.agrees {t : Transcript} (h : t.Faithful) : t.Agrees := by
  refine ⟨fun p hp => ?_, fun p => ?_⟩
  · unfold Cache.isStaged at hp
    rw [Option.any_eq_true] at hp
    obtain ⟨e, hl, hs⟩ := hp
    obtain ⟨he, hpath⟩ := h.sound.lookup?_eq_some_iff.mp hl
    have hchanged : e.path ∈ t.cache.reset.1.changed ↔ e.verdict ≠ .unchanged :=
      (h.sound.mem_changed_path he).trans (and_iff_right hs)
    rw [← hpath, h.flags e he hs, decide_eq_decide.mpr hchanged]
  · rw [h.sound.hasChanged_eq]
    exact h.shown.changed p

end Transcript

end IncrementalBuild
