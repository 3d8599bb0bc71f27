import IncrementalBuild.Json.Token
/-!
# Reading JSON

Strict JSON: one value, no comma after the last item, at most 127 containers inside each other.
The reader walks over the tokens with the containers that are still open.
-/
namespace IncrementalBuild.Json

/-- An open container. What it holds so far is last first; an object waits for the value of a
key. -/
inductive Frame where
  | array (items : List Json)
  | object (members : List (Text × Json)) (key : Text)
  deriving Repr, BEq

/-- What may come next. -/
inductive Awaiting where
  | value
  | firstItem
  | afterItem (items : List Json)
  | firstKey
  | key (members : List (Text × Json))
  | colon (members : List (Text × Json)) (key : Text)
  | afterMember (members : List (Text × Json))
  | finish (v : Json)
  deriving Repr, BEq

/-- The most containers that may be open at once. -/
def depthLimit : Nat := 127

/-- What comes next once the innermost open container has got a value. -/
def deliver (v : Json) : List Frame → List Frame × Awaiting
  | [] => ([], .finish v)
  | .array items :: outer => (outer, .afterItem (v :: items))
  | .object members key :: outer => (outer, .afterMember ((key, v) :: members))

/-- The state before the value that a token starts or is. -/
def beginValue? (outer : List Frame) : Token → Option (List Frame × Awaiting)
  | .value v => some (deliver v outer)
  | .openArray => if outer.length < depthLimit then some (outer, .firstItem) else none
  | .openObject => if outer.length < depthLimit then some (outer, .firstKey) else none
  | _ => none

def advance? (outer : List Frame) (next : Awaiting) (t : Token) :
    Option (List Frame × Awaiting) :=
  match next, t with
  | .value, t => beginValue? outer t
  | .firstItem, .closeArray => some (deliver (.array []) outer)
  | .firstItem, t => beginValue? (.array [] :: outer) t
  | .afterItem items, .comma => some (.array items :: outer, .value)
  | .afterItem items, .closeArray => some (deliver (.array items.reverse) outer)
  | .firstKey, .closeObject => some (deliver (.object []) outer)
  | .firstKey, .value (.string k) => some (outer, .colon [] k)
  | .key members, .value (.string k) => some (outer, .colon members k)
  | .colon members k, .colon => some (.object members k :: outer, .value)
  | .afterMember members, .comma => some (outer, .key members)
  | .afterMember members, .closeObject => some (deliver (.object members.reverse) outer)
  | _, _ => none

/-- Reads tokens from a state to the end. -/
def readTokens? (outer : List Frame) (next : Awaiting) : List Token → Option Json
  | [] =>
    match next with
    | .finish v => some v
    | _ => none
  | t :: rest => do
    let (outer, next) ← advance? outer next t
    readTokens? outer next rest

def ofText? (t : Text) : Option Json := do
  let ts ← tokens? t
  readTokens? [] .value ts

end IncrementalBuild.Json
