import IncrementalBuild.Proofs.ReachableCaches
import Mathlib.Data.List.Find
/-!
# Spellings of a path

A path can be written in many ways, and a cache takes it by its normal form: staging, marking and
every query give the same for all spellings of one path. Pruning is the exception. It compares the
paths to keep as they are written, component by component, and forgets a file that is kept under
another spelling only.
-/
namespace IncrementalBuild

namespace Path

variable {p q : Path}

theorem IsNormal.same_normalize_iff (hp : p.IsNormal) :
    p.same q.normalize = true ↔ p = q.normalize := by
  constructor
  · intro h
    exact (hp.eq_normalize h).trans q.normalize_isNormal
  · rintro rfl
    exact same_iff.mpr rfl

/-- A normal form is among paths if one of them is a spelling in which nothing folds. -/
theorem normalize_among_iff {keep : List Path} : p.normalize.among keep = true ↔
    ∃ q ∈ keep, q.normalize = p.normalize ∧ q.components = q.normalize.components := by
  rw [among_iff]
  refine exists_congr fun q => and_congr_right fun _ => ?_
  rw [same_iff]
  constructor
  · intro h
    have heq : p.normalize = q.normalize := p.normalize_isNormal.eq_normalize (same_iff.mpr h)
    exact ⟨heq.symm, by rw [← heq, h]⟩
  · rintro ⟨heq, hplain⟩
    rw [hplain, heq]

end Path

namespace Cache

/-- The entry of a path as it is written, or else that of its normal form. -/
def lookupAsWritten? (c : Cache) (p : Path) : Option Entry :=
  (c.entries.find? (·.path.same p)).or (c.entries.find? (·.path.same p.normalize))

section
variable {c : Cache} (h : c.Sound)
include h

/-- Files stand under normal forms, so there is nothing else to find under a path as it is
written than under its normal form. -/
theorem Sound.lookupAsWritten?_eq (hnormal : c.Normal) (p : Path) :
    c.lookupAsWritten? p = c.lookup? p := by
  have hfold : c.entries.find? (·.path.same p.normalize) = c.lookup? p := by
    apply List.find?_congr
    intro e he
    rw [Bool.eq_iff_iff, (hnormal e he).same_normalize_iff, beq_iff_eq]
  unfold lookupAsWritten?
  rw [hfold]
  cases hfind : c.entries.find? (·.path.same p) with
  | none => exact Option.none_or
  | some e =>
    have he := List.mem_of_find?_eq_some hfind
    have hsame := List.find?_some hfind
    exact (h.lookup?_eq_some_iff.mpr ⟨he, (hnormal e he).eq_normalize hsame⟩).symm

end

/-- A path counts by its normal form, except for what a prune keeps. -/
theorem spellings_agree (steps : List CacheStep) :
    (∀ p q : Path, p.normalize = q.normalize →
      (∀ content, (runSteps steps).stage p content = (runSteps steps).stage q content) ∧
      (runSteps steps).markExternal p = (runSteps steps).markExternal q ∧
      (runSteps steps).hasChanged p = (runSteps steps).hasChanged q ∧
      (runSteps steps).isStaged p = (runSteps steps).isStaged q ∧
      (runSteps steps).contains p = (runSteps steps).contains q ∧
      (runSteps steps).get? p = (runSteps steps).get? q) ∧
    (∀ p, (runSteps steps).lookupAsWritten? p = (runSteps steps).lookup? p) ∧
    (∀ keep p,
      ((∃ q ∈ keep, q.normalize = p.normalize ∧ q.components = q.normalize.components) →
        ((runSteps steps).prune keep).2.get? p = (runSteps steps).get? p) ∧
      ((∀ q ∈ keep, q.normalize = p.normalize → q.components ≠ q.normalize.components) →
        ((runSteps steps).prune keep).2.get? p = none)) := by
  have hsound := runSteps_sound steps
  refine ⟨fun p q hpq => ?_, hsound.lookupAsWritten?_eq (runSteps_normal steps),
    fun keep p => ⟨fun hkept => ?_, fun hnone => ?_⟩⟩
  · have hlookup : (runSteps steps).lookup? p = (runSteps steps).lookup? q := by
      unfold lookup?
      rw [hpq]
    refine ⟨fun content => ?_, ?_, ?_, ?_, ?_, ?_⟩
    · unfold stage
      rw [hpq]
    · unfold markExternal
      rw [hlookup]
    · unfold hasChanged
      rw [hlookup]
    · unfold isStaged
      rw [hlookup]
    · unfold contains
      rw [hlookup]
    · unfold get?
      rw [hlookup]
  · rw [hsound.get?_prune, if_pos (Path.normalize_among_iff.mpr hkept)]
  · rw [hsound.get?_prune, if_neg]
    intro hamong
    obtain ⟨q, hq, hpq, hplain⟩ := Path.normalize_among_iff.mp hamong
    exact hnone q hq hpq hplain

/-- The one path to keep has the normal form of the one file, and still the file is forgotten. -/
theorem respelled_path_forgotten :
    let c := runSteps [.upsert ⟨"/p/a.ts".toList⟩ "let a;".toList]
    let keep : List Path := [⟨"/p/src/../a.ts".toList⟩]
    c.entries.map Entry.path = keep.map Path.normalize ∧
      (c.get? ⟨"/p/a.ts".toList⟩).isSome ∧
      (c.prune keep).1 = 1 ∧ (c.prune keep).2.get? ⟨"/p/a.ts".toList⟩ = none := by
  decide +kernel

end Cache

end IncrementalBuild
