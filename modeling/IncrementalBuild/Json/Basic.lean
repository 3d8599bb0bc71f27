import IncrementalBuild.Text.Basic
/-!
# JSON values

A number is an integer of 64 bits, signed or not, or a double. The members of an object stand in
the order they were written, and a key may stand twice until `Json.settle` keeps the last value
of each key and puts the keys in order.
-/
namespace IncrementalBuild

/-- A JSON value. A double is given by its bits. -/
inductive Json where
  | null
  | bool (value : Bool)
  | integer (value : Int)
  | double (bits : UInt64)
  | string (value : Text)
  | array (items : List Json)
  | object (members : List (Text × Json))
  deriving Repr, BEq, Inhabited

namespace Json

/-- Puts a member into members in order of their keys, in place of an earlier one of its key. -/
def insertMember (key : Text) (value : Json) : List (Text × Json) → List (Text × Json)
  | [] => [(key, value)]
  | (k, v) :: rest =>
    if key = k then (key, value) :: rest
    else if key < k then (key, value) :: (k, v) :: rest
    else (k, v) :: insertMember key value rest

/-- The members in order of their keys, the last one of each key. -/
def sortMembers (members : List (Text × Json)) : List (Text × Json) :=
  members.foldl (fun sorted (k, v) => insertMember k v sorted) []

mutual

/-- The value with each key of an object standing once, with its last value, in order. -/
def settle : Json → Json
  | array items => array (settleItems items)
  | object members => object (sortMembers (settleMembers members))
  | v => v

def settleItems : List Json → List Json
  | [] => []
  | v :: rest => settle v :: settleItems rest

def settleMembers : List (Text × Json) → List (Text × Json)
  | [] => []
  | (k, v) :: rest => (k, settle v) :: settleMembers rest

end

/-- The last value written for a key of an object. -/
def get? (v : Json) (key : Text) : Option Json :=
  match v with
  | object members => (members.reverse.find? (·.1 == key)).map (·.2)
  | _ => none

def text? : Json → Option Text
  | string t => some t
  | _ => none

def items? : Json → Option (List Json)
  | array items => some items
  | _ => none

def bool? : Json → Option Bool
  | bool b => some b
  | _ => none

def natBelow? (limit : Nat) : Json → Option Nat
  | integer n => if 0 ≤ n ∧ n < limit then some n.toNat else none
  | _ => none

def texts (ts : List Text) : Json := array (ts.map string)

def nat (n : Nat) : Json := integer n

/-- An object with members whose keys are written as strings. -/
def record (members : List (String × Json)) : Json :=
  object (members.map fun (k, v) => (k.toList, v))

end Json

end IncrementalBuild
