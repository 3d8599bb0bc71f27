import IncrementalBuild.Json.Basic
/-!
# Reading values out of JSON

A record is written as an object, whose unknown members are ignored, or as an array of its fields
in order. A choice is written as its word, or as an object whose only key is the word.
-/
namespace IncrementalBuild.Json

/-- The values of all fields of a record. -/
def fields? (names : List String) : Json → Option (List Json)
  | object members => names.mapM fun name => (object members).get? name.toList
  | array items => if items.length = names.length then some items else none
  | _ => none

/-- The values of fields that may be missing. In an array the last ones may be missing. -/
def optionalFields? (names : List String) : Json → Option (List (Option Json))
  | object members => some (names.map fun name => (object members).get? name.toList)
  | array items =>
    if items.length ≤ names.length then
      some (names.zipIdx.map fun (_, i) => items[i]?)
    else none
  | _ => none

/-- The word of a choice. -/
def word? : Json → Option Text
  | string t => some t
  | object [(t, null)] => some t
  | _ => none

/-- The value that stands beside the word of a choice in a table of words. -/
def choice? {α : Type} (words : List (String × α)) (v : Json) : Option α := do
  let word ← word? v
  (words.find? (·.1.toList == word)).map (·.2)

/-- The items of an array, each read by `f`. -/
def listOf? {α : Type} (f : Json → Option α) : Json → Option (List α)
  | array items => items.mapM f
  | _ => none

end IncrementalBuild.Json
