/-!
# Sets of nodes

A set of nodes of a graph is kept in the bits of one number, so that two sets are joined at once.
What is stated here: which nodes are in a set that is built from others.
-/
namespace IncrementalBuild

/-- A set of nodes. Node `i` is in the set when bit `i` is set. -/
structure NodeSet where
  bits : Nat
  deriving DecidableEq, Repr

namespace NodeSet

def empty : NodeSet := ⟨0⟩

def contains (s : NodeSet) (i : Nat) : Bool := s.bits.testBit i

def union (s t : NodeSet) : NodeSet := ⟨s.bits ||| t.bits⟩

def insert (s : NodeSet) (i : Nat) : NodeSet := ⟨s.bits ||| 1 <<< i⟩

def ofList (nodes : List Nat) : NodeSet := nodes.foldl insert empty

@[simp] theorem contains_empty (i : Nat) : empty.contains i = false := by
  simp [empty, contains]

@[simp] theorem contains_union (s t : NodeSet) (i : Nat) :
    (s.union t).contains i = (s.contains i || t.contains i) := by
  simp [union, contains]

@[simp] theorem contains_insert (s : NodeSet) (i j : Nat) :
    (s.insert i).contains j = (s.contains j || decide (i = j)) := by
  simp [insert, contains, Nat.one_shiftLeft, Nat.testBit_two_pow]

theorem contains_foldl_insert (nodes : List Nat) (s : NodeSet) (i : Nat) :
    (nodes.foldl insert s).contains i = (s.contains i || decide (i ∈ nodes)) := by
  induction nodes generalizing s with
  | nil => simp
  | cons j nodes ih => rw [List.foldl_cons, ih, contains_insert]; grind

@[simp] theorem contains_ofList (nodes : List Nat) (i : Nat) :
    (ofList nodes).contains i = decide (i ∈ nodes) := by
  simp [ofList, contains_foldl_insert]

end NodeSet

end IncrementalBuild
