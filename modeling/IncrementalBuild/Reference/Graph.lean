import IncrementalBuild.Reference.NodeSet
import IncrementalBuild.Source.Cache
/-!
# The reference graph

The files of a cycle and the references between them. Nodes are numbered in the order of the
cycle. A reference to a file outside the cycle, of a file to itself, or to a file that was named
before adds nothing.
-/
namespace IncrementalBuild

/-- A reference from one node to another: the target, and where it is written. -/
structure Link where
  target : Nat
  span : Span
  deriving DecidableEq, Repr

/-- A file of the cycle with its links in the order they are written. -/
structure Node where
  id : FileId
  path : Path
  links : List Link
  deriving DecidableEq, Repr

structure ReferenceGraph where
  nodes : List Node
  deriving DecidableEq, Repr

namespace ReferenceGraph

/-- The links of the node `self`, whose references are given, among files with `paths`. -/
def linksOf (paths : List Path) (self : Nat) (references : List Reference) : List Link :=
  references.foldl (fun links r =>
    match paths.idxOf? r.path with
    | none => links
    | some target =>
      if target = self ∨ links.any (·.target = target) then links
      else links ++ [⟨target, r.span⟩]) []

/-- The graph of files in order. -/
def ofFiles (files : List SourceFile) : ReferenceGraph :=
  let paths := files.map SourceFile.path
  ⟨files.zipIdx.map fun (f, i) => ⟨f.id, f.path, linksOf paths i f.references⟩⟩

def build (sources : Cache) : ReferenceGraph := ofFiles sources.files

def size (g : ReferenceGraph) : Nat := g.nodes.length

def links (g : ReferenceGraph) (i : Nat) : List Link := (g.nodes[i]?.map Node.links).getD []

/-- The nodes that a node refers to, in the order they are named. -/
def targets (g : ReferenceGraph) (i : Nat) : List Nat := (g.links i).map Link.target

/-- The ids of the files that a file refers to. -/
def references (g : ReferenceGraph) (id : FileId) : List FileId :=
  match g.nodes.find? (·.id == id) with
  | none => []
  | some node => node.links.filterMap fun l => g.nodes[l.target]?.map Node.id

/-! ## Reachability -/

/-- The sets of nodes that nodes lead to, when routes may also pass through node `k`. -/
def through (reach : List NodeSet) (k : Nat) : List NodeSet :=
  let further := reach.getD k .empty
  reach.map fun s => if s.contains k then s.union further else s

/-- Each node with its targets: where a route leads that passes through no other node. -/
def direct (g : ReferenceGraph) : List NodeSet :=
  g.nodes.zipIdx.map fun (node, i) => .ofList (i :: node.links.map Link.target)

/-- For each node, the nodes it leads to, itself included. Routes may pass through one more node
at a time, until they may pass through every node. -/
def reach (g : ReferenceGraph) : List NodeSet := (List.range g.size).foldl through g.direct

/-- The component of each node: the nodes it leads to that lead back to it, in order. -/
def components (g : ReferenceGraph) : List (List Nat) :=
  let reach := g.reach.zipIdx
  reach.map fun (ahead, i) =>
    (reach.filter fun (back, j) => ahead.contains j && back.contains i).map (·.2)

/-- The components of at least two nodes, each once, in the order of their first nodes. -/
def tangles (g : ReferenceGraph) : List (List Nat) :=
  (g.components.zipIdx.filter fun (c, i) => c.head? == some i && 1 < c.length).map (·.1)

end ReferenceGraph

end IncrementalBuild
