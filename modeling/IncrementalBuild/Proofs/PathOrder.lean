import Mathlib.Data.Char
import Mathlib.Data.List.Lex
import Mathlib.Data.Prod.Lex
import IncrementalBuild.Proofs.NormalForm
/-!
# The order of paths

Paths are compared component by component. This is the lexicographic order of lists under a linear
order of components, so it is total and transitive, and two paths that come before each other have
the same components.
-/
namespace IncrementalBuild

namespace Component

/-- The place of a component among all: its kind, and its text if it is a name. -/
def key : Component → ℕ ×ₗ Text
  | name t => toLex (rank (name t), t)
  | c => toLex (c.rank, [])

theorem key_injective : Function.Injective key := by
  intro a b h
  cases a <;> cases b <;> simp_all [key, rank]

theorem lt_iff {a b : Component} : a.lt b = true ↔ a.key < b.key := by
  cases a <;> cases b <;> simp [lt, key, rank, Prod.Lex.toLex_lt_toLex]

end Component

namespace Path

def key (p : Path) : List (ℕ ×ₗ Text) := p.components.map Component.key

theorem compareComponents_eq_gt_iff {cs ds : List Component} :
    compareComponents cs ds = .gt ↔ ds.map Component.key < cs.map Component.key := by
  induction cs generalizing ds with
  | nil => cases ds <;> simp [compareComponents]
  | cons c cs ih =>
    cases ds with
    | nil => simp [compareComponents]
    | cons d ds =>
      rw [List.map_cons, List.map_cons, List.cons_lt_cons_iff, compareComponents, ← ih]
      rcases lt_trichotomy c.key d.key with h | h | h
      · simp [Component.lt_iff, h, h.ne', h.le]
      · simp [Component.lt_iff, h]
      · simp [Component.lt_iff, h, h.le]

theorem same_iff_key {p q : Path} : p.same q = true ↔ p.key = q.key :=
  same_iff.trans (List.map_injective_iff.mpr Component.key_injective).eq_iff.symm

theorem le_iff {p q : Path} : p.le q = true ↔ p.key ≤ q.key := by
  rw [← not_lt, key, key, ← compareComponents_eq_gt_iff, le, bne_iff_ne]

theorem le_trans' {p q r : Path} (hpq : p.le q = true) (hqr : q.le r = true) : p.le r = true := by
  rw [le_iff] at hpq hqr ⊢
  exact hpq.trans hqr

theorem le_total' (p q : Path) : (p.le q || q.le p) = true := by
  rw [Bool.or_eq_true, le_iff, le_iff]
  exact le_total p.key q.key

theorem same_of_le {p q : Path} (hpq : p.le q = true) (hqp : q.le p = true) : p.same q = true := by
  rw [le_iff] at hpq hqp
  exact same_iff_key.mpr (hpq.antisymm hqp)

end Path

end IncrementalBuild
