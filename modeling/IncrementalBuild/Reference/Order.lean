import IncrementalBuild.Config.Settings
import IncrementalBuild.Reference.Circle
/-!
# The order of emission

Files come after the files they refer to. Files are visited in the order of a policy, and each
visit first visits what the file refers to. If there is a reference cycle, the files keep the
order of the build cycle.
-/
namespace IncrementalBuild

/-- A visit under way: the nodes seen, the nodes that are open with the targets they still have
to visit, the innermost first, and the nodes that are done, in order. -/
structure Visit where
  seen : List Nat
  stack : List (Nat × List Nat)
  done : List Nat
  deriving DecidableEq, Repr

namespace Visit

/-- One step: the innermost open node looks at its next target, or is done. -/
def step (targets : Nat → List Nat) (v : Visit) : Visit :=
  match v.stack with
  | [] => v
  | (i, []) :: outer => { v with stack := outer, done := v.done ++ [i] }
  | (i, j :: rest) :: outer =>
    if j ∈ v.seen then { v with stack := (i, rest) :: outer }
    else { v with seen := j :: v.seen, stack := (j, targets j) :: (i, rest) :: outer }

/-- Takes at most `bound` steps, until no node is open. -/
def run (targets : Nat → List Nat) : Nat → Visit → Visit
  | 0, v => v
  | bound + 1, v => if v.stack.isEmpty then v else run targets bound (v.step targets)

/-- Visits a node, unless it was seen before. -/
def root (targets : Nat → List Nat) (bound : Nat) (v : Visit) (i : Nat) : Visit :=
  if i ∈ v.seen then v
  else run targets bound { v with seen := i :: v.seen, stack := [(i, targets i)] }

end Visit

/-- An order of the files, and the reference cycles. -/
structure OutputOrder where
  files : List FileId
  cycles : List ReferenceCycle
  deriving DecidableEq, Repr

/-- Whether reference cycles made the files keep the order of the cycle. -/
def OutputOrder.isFallback (o : OutputOrder) : Bool := !o.cycles.isEmpty

namespace ReferenceGraph

/-- The number of steps that visiting every node takes. -/
def effort (g : ReferenceGraph) : Nat := g.size + (g.nodes.flatMap Node.links).length

/-- The nodes in the order of a policy. -/
def roots (g : ReferenceGraph) : OrderingPolicy → List Nat
  | .resolution => List.range g.size
  | .path =>
    let path (i : Nat) : Path := (g.nodes[i]?.map Node.path).getD ⟨[]⟩
    (List.range g.size).mergeSort fun i j => (path i).le (path j)

/-- The nodes, each after its targets, visited from roots in order. -/
def referencesFirst (g : ReferenceGraph) (roots : List Nat) : List Nat :=
  (roots.foldl (Visit.root g.targets g.effort) ⟨[], [], []⟩).done

def idsOf (g : ReferenceGraph) (indices : List Nat) : List FileId :=
  indices.filterMap fun i => g.nodes[i]?.map Node.id

def order (g : ReferenceGraph) (policy : OrderingPolicy) : OutputOrder :=
  match g.cycles with
  | [] => ⟨g.idsOf (g.referencesFirst (g.roots policy)), []⟩
  | cycles => ⟨g.nodes.map Node.id, cycles⟩

end ReferenceGraph

end IncrementalBuild
