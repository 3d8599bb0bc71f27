import IncrementalBuild.Config.Error
import IncrementalBuild.Json.Decoding
import IncrementalBuild.Toml.Reader
/-!
# Build settings

The settings of a build stand in the table `build` of a settings file. All of them may be
missing, and keys that mean nothing are ignored.
-/
namespace IncrementalBuild

/-- How files without an order between them are ordered: as they were listed, or by path. -/
inductive OrderingPolicy where
  | resolution
  | path
  deriving DecidableEq, Repr

def OrderingPolicy.words : List (String × OrderingPolicy) :=
  [("resolution", .resolution), ("path", .path)]

def OrderingPolicy.text : OrderingPolicy → Text
  | resolution => "resolution"
  | path => "path"

structure BuildSettings where
  noExternalResolve : Bool
  sortOutput : Bool
  ordering : OrderingPolicy
  deriving DecidableEq, Repr

namespace BuildSettings

def initial : BuildSettings := ⟨false, false, .resolution⟩

/-- The keys of the settings, in order. -/
def names : List String := ["no_external_resolve", "sort_output", "ordering"]

def ofValues? {α : Type} (flag : α → Option Bool) (policy : α → Option OrderingPolicy)
    (values : List (Option α)) : Option BuildSettings := do
  let value {β : Type} (i : Nat) (read : α → Option β) (fallback : β) : Option β :=
    match (values[i]?).join with
    | none => some fallback
    | some v => read v
  return ⟨← value 0 flag false, ← value 1 flag false, ← value 2 policy .resolution⟩

/-! ## Settings in TOML -/

def flag? : Toml.Value → Option Bool
  | .boolean b => some b
  | _ => none

/-- A policy: its word, or a table with the word as its only key and nothing under it. -/
def policy? (v : Toml.Value) : Option OrderingPolicy :=
  let word : Option Text := match v with
    | .string t => some t
    | .table [(t, .table [])] | .table [(t, .array [])] => some t
    | _ => none
  word.bind fun t => (OrderingPolicy.words.find? (·.1.toList == t)).map (·.2)

/-- Reads the value under `build`: a table, or an array of the settings in order, whose further
items mean nothing. A date has none of the keys. -/
def ofToml? : Toml.Value → Option BuildSettings
  | .table members => ofValues? flag? policy? (names.map (Toml.Value.table members).get?)
  | .array items => ofValues? flag? policy? (items.map some)
  | .datetime => some initial
  | _ => none

def ofText (t : Text) : Except ConfigError BuildSettings :=
  let settings := (Toml.ofText? t).bind fun file =>
    match file.get? "build" with
    | none => some initial
    | some v => ofToml? v
  match settings with
  | some s => .ok s
  | none => .error (.malformedSettings "not build settings in TOML")

/-! ## Settings in JSON -/

def ofJson? (v : Json) : Option BuildSettings := do
  ofValues? Json.bool? (Json.choice? OrderingPolicy.words) (← v.optionalFields? names)

def toJson (s : BuildSettings) : Json :=
  .record [("no_external_resolve", .bool s.noExternalResolve),
    ("sort_output", .bool s.sortOutput), ("ordering", .string s.ordering.text)]

end BuildSettings

end IncrementalBuild
