import IncrementalBuild.Text.Basic
/-!
# TOML values and tables under construction

A table comes into being in three ways: by a header of its own, as a part of another header's
name, or by a dotted key. How it came into being decides what may still be added to it.
-/
namespace IncrementalBuild.Toml

/-- A TOML value, as far as a build looks at it: the values of floats and dates do not matter. -/
inductive Value where
  | string (text : Text)
  | integer (value : Int)
  | float
  | boolean (value : Bool)
  | datetime
  | array (items : List Value)
  | table (members : List (Text × Value))
  deriving Repr, BEq, Inhabited

/-- How a table came into being. -/
inductive Origin where
  | header
  | implied
  | dotted
  deriving DecidableEq, Repr

/-- What stands under a key: a value, a table, or an array of tables with the last one first. -/
inductive Node where
  | value (v : Value)
  | table (origin : Origin) (members : List (Text × Node))
  | tables (items : List (List (Text × Node)))

/-- A table: how it came into being, and what stands under its keys. -/
structure Table where
  origin : Origin
  members : List (Text × Node)

namespace Table

def get? (t : Table) (key : Text) : Option Node := (t.members.find? (·.1 == key)).map (·.2)

/-- Puts a node under a key, in place of an earlier one. -/
def put (t : Table) (key : Text) (node : Node) : Table :=
  if t.members.any (·.1 == key) then
    { t with members := t.members.map fun (k, n) => if k = key then (k, node) else (k, n) }
  else { t with members := t.members ++ [(key, node)] }

/-- Changes the table at the end of a path. Tables on the way that do not exist come into being
with origin `fresh`; a dotted key does not lead into a table that has a header of its own. -/
def changeAt (fresh : Origin) (change : Table → Option Table) :
    List Text → Table → Option Table
  | [], t => change t
  | key :: rest, t =>
    match t.get? key with
    | none => do
      let inner ← changeAt fresh change rest ⟨fresh, []⟩
      return t.put key (.table inner.origin inner.members)
    | some (.value _) => none
    | some (.table origin members) =>
      if fresh = .dotted ∧ origin = .header then none
      else do
        let inner ← changeAt fresh change rest ⟨origin, members⟩
        return t.put key (.table inner.origin inner.members)
    | some (.tables []) => none
    | some (.tables (last :: earlier)) => do
      let inner ← changeAt fresh change rest ⟨.header, last⟩
      return t.put key (.tables (inner.members :: earlier))

/-- Sets a key of the table at the end of a dotted path. Keys are set once, and a dotted path
adds only to tables that came into being by one. -/
def assign (path : List Text) (key : Text) (v : Value) (t : Table) : Option Table :=
  changeAt .dotted (fun inner =>
    if (inner.origin = .dotted) = (path = []) then none
    else if (inner.get? key).isSome then none
    else some (inner.put key (.value v))) path t

/-- Opens the table of a header. -/
def openTable (path : List Text) (key : Text) (t : Table) : Option Table :=
  changeAt .implied (fun parent =>
    match parent.get? key with
    | none => some (parent.put key (.table .header []))
    | some (.table .implied members) => some (parent.put key (.table .header members))
    | some _ => none) path t

/-- Opens the next table of an array of tables. -/
def openItem (path : List Text) (key : Text) (t : Table) : Option Table :=
  changeAt .implied (fun parent =>
    match parent.get? key with
    | none => some (parent.put key (.tables [[]]))
    | some (.tables items) => some (parent.put key (.tables ([] :: items)))
    | some _ => none) path t

end Table

mutual

/-- The value that a finished node stands for. -/
def Node.finish : Node → Value
  | .value v => v
  | .table _ members => .table (finishMembers members)
  | .tables items => .array (finishItems items).reverse

def finishMembers : List (Text × Node) → List (Text × Value)
  | [] => []
  | (k, n) :: rest => (k, n.finish) :: finishMembers rest

def finishItems : List (List (Text × Node)) → List Value
  | [] => []
  | members :: rest => .table (finishMembers members) :: finishItems rest

end

def Value.get? (v : Value) (key : String) : Option Value :=
  match v with
  | .table members => (members.find? (·.1 == key.toList)).map (·.2)
  | _ => none

end IncrementalBuild.Toml
