import IncrementalBuild.Config.Comments
import IncrementalBuild.Config.Error
import IncrementalBuild.Json.Decoding
import IncrementalBuild.Json.Reader
import IncrementalBuild.Json.Writer
import IncrementalBuild.Text.Blank
/-!
# Project files

A project file lists source files and the options of the compiler. Options that the build does
not know are kept with their values, so writing a project file loses nothing.
-/
namespace IncrementalBuild

/-- The options of the compiler. `extra` holds the options that mean nothing here. -/
structure CompilerOptions where
  rootDir : Option Text
  out : Option Text
  outDir : Option Text
  declaration : Bool
  target : Option Text
  module : Option Text
  extra : List (Text × Json)

/-- A project file. `extra` holds the top-level members that mean nothing here. -/
structure ProjectConfig where
  files : Option (List Text)
  options : CompilerOptions
  extra : List (Text × Json)

def CompilerOptions.empty : CompilerOptions := ⟨none, none, none, false, none, none, []⟩

def ProjectConfig.empty : ProjectConfig := ⟨none, .empty, []⟩

namespace Config

abbrev Members := List (Text × Json)

def isNamed (names : List String) (key : Text) : Bool := names.any (·.toList == key)

/-- The value under any of some names, which together may stand once. -/
def single? (names : List String) (members : Members) : Option (Option Json) :=
  match members.filter (isNamed names ·.1) with
  | [] => some none
  | [(_, v)] => some (some v)
  | _ => none

/-- The members under none of some names: each key with its last value, in order of the keys. -/
def others (names : List String) (members : Members) : Members :=
  Json.sortMembers (Json.settleMembers (members.filter (!isNamed names ·.1)))

/-- A value that may be missing or null. -/
def nullable? {α : Type} (read : Json → Option α) : Option Json → Option (Option α)
  | none | some .null => some none
  | some v => (read v).map some

/-- A text option, which may be missing or null. -/
def textOption? (names : List String) (members : Members) : Option (Option Text) :=
  (single? names members).bind (nullable? Json.text?)

end Config

open Config

namespace CompilerOptions

def names : List String :=
  ["rootDir", "out", "outFile", "outDir", "declaration", "target", "module"]

/-- Reads the options. The name `outFile` is another one for `out`. -/
def ofJson? : Json → Option CompilerOptions
  | .object members => do
    let declaration ← match ← single? ["declaration"] members with
      | none => some false
      | some v => v.bool?
    return {
      rootDir := ← textOption? ["rootDir"] members
      out := ← textOption? ["out", "outFile"] members
      outDir := ← textOption? ["outDir"] members
      declaration
      target := ← textOption? ["target"] members
      module := ← textOption? ["module"] members
      extra := others names members }
  | _ => none

def toJson (o : CompilerOptions) : Json :=
  let text (name : String) (v : Option Text) : Members :=
    (v.map fun t => (name.toList, Json.string t)).toList
  .object (text "rootDir" o.rootDir ++ text "out" o.out ++ text "outDir" o.outDir ++
    [("declaration".toList, .bool o.declaration)] ++ text "target" o.target ++
    text "module" o.module ++ o.extra)

end CompilerOptions

namespace ProjectConfig

def names : List String := ["files", "compilerOptions"]

def ofJson? : Json → Option ProjectConfig
  | .object members => do
    let files ← nullable? (Json.listOf? Json.text?) (← single? ["files"] members)
    let options ← match ← single? ["compilerOptions"] members with
      | none => some .empty
      | some v => CompilerOptions.ofJson? v
    return { files, options, extra := others names members }
  | _ => none

def toJson (p : ProjectConfig) : Json :=
  .object ((p.files.map fun fs => ("files".toList, Json.texts fs)).toList ++
    [("compilerOptions".toList, p.options.toJson)] ++ p.extra)

def text (p : ProjectConfig) : Text := p.toJson.compact

/-- What is wrong with a file list: it is there and empty, or has an entry of blanks only. -/
def fault? (p : ProjectConfig) : Option ConfigError :=
  match p.files with
  | none => none
  | some [] => some (.invalid "the 'files' list is empty")
  | some files =>
    (files.findIdx? Text.allBlank).map fun i =>
      .invalid ("'files' entry ".toList ++ Text.ofNat i ++ " is empty".toList)

/-- The project that a text is written for. -/
def ofText (t : Text) : Except ConfigError ProjectConfig :=
  match (Json.ofText? (stripComments t)).bind ofJson? with
  | none => .error (.malformedProject "not a project in JSON")
  | some p =>
    match p.fault? with
    | some e => .error e
    | none => .ok p

end ProjectConfig

end IncrementalBuild
