import IncrementalBuild.Diagnostic.Basic
import IncrementalBuild.Reference.Graph
/-!
# Reference cycles

Files that refer to each other in a circle have no order in which each comes after the files it
refers to. What is reported of such a component is one closed walk, which starts at its first
file, and every reference inside it.
-/
namespace IncrementalBuild

structure CycleStep where
  path : Path
  reference : Span
  target : Path
  deriving DecidableEq, Repr

/-- Whether two steps have the same paths and the same span. -/
def CycleStep.same (a b : CycleStep) : Bool :=
  a.path.same b.path && a.reference == b.reference && a.target.same b.target

/-- A reported cycle: a closed walk, and every reference between its files. -/
structure ReferenceCycle where
  members : List CycleStep
  references : List CycleStep
  deriving DecidableEq, Repr

namespace ReferenceCycle

/-- The files of the walk, up to the one where it closes. -/
def text (c : ReferenceCycle) : Text :=
  let closing := (c.members.getLast?.map CycleStep.target).toList
  "reference cycle: ".toList ++
    Text.join " -> " ((c.members.map CycleStep.path ++ closing).map Path.text)

def label (style : LabelStyle) (s : CycleStep) : Label :=
  ⟨s.reference, "references `".toList ++ s.target.text ++ "`".toList, style⟩

/-- The diagnostic of a cycle: it points at the first step, and then at every other reference. -/
def diagnostic (c : ReferenceCycle) : Diagnostic :=
  let first := c.members.head?
  let span := (first.map CycleStep.reference).getD Span.dummy
  let steps := if c.references.isEmpty then c.members else c.references
  let others := steps.filter fun s => !first.any s.same
  { Diagnostic.error .cyclicReference c.text span with
    labels := (first.map (label .primary)).toList ++ others.map (label .secondary)
    notes := ["files are emitted in resolution order"] }

end ReferenceCycle

namespace ReferenceGraph

/-- The step that a link of a node makes. -/
def step (g : ReferenceGraph) (i : Nat) (l : Link) : CycleStep :=
  let path (i : Nat) : Path := (g.nodes[i]?.map Node.path).getD ⟨[]⟩
  ⟨path i, l.span, path l.target⟩

/-- Follows the first link inside a component, at most `bound` times, up to a node that was seen
before. -/
def walk (g : ReferenceGraph) (component : List Nat) : Nat → List Nat → Nat → List CycleStep
  | 0, _, _ => []
  | bound + 1, seen, i =>
    if i ∈ seen then []
    else match (g.links i).find? (·.target ∈ component) with
      | none => []
      | some l => g.step i l :: walk g component bound (i :: seen) l.target

/-- The references inside a component, by node and then as they are written. -/
def inner (g : ReferenceGraph) (component : List Nat) : List CycleStep :=
  component.flatMap fun i => ((g.links i).filter (·.target ∈ component)).map (g.step i)

/-- The reference cycles, in the order of their first files. -/
def cycles (g : ReferenceGraph) : List ReferenceCycle :=
  g.tangles.map fun component =>
    ⟨g.walk component (component.length + 1) [] (component.headD 0), g.inner component⟩

end ReferenceGraph

end IncrementalBuild
