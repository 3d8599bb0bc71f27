import IncrementalBuild.Text.Basic
/-!
# Paths

A path is written as text: names divided by slashes, absolute when a slash comes first. Its
meaning is its list of components. Empty names and dots between slashes mean nothing, so several
texts have one meaning; paths are compared, looked up and ordered by their components.
-/
namespace IncrementalBuild

/-- A part of a path: the root, the directory a relative path starts with when it is written as
a dot, the parent directory, or a name. -/
inductive Component where
  | root
  | current
  | parent
  | name (text : Text)
  deriving DecidableEq, Repr

/-- A path, as it is written. -/
structure Path where
  text : Text
  deriving DecidableEq, Repr, Inhabited

namespace Component

def text : Component → Text
  | root => ['/']
  | current => ['.']
  | parent => ['.', '.']
  | name t => t

/-- The place of a component among components of other kinds. -/
def rank : Component → Nat
  | root => 0
  | current => 1
  | parent => 2
  | name _ => 3

/-- Components of different kinds are ordered by kind, names character by character. -/
def lt (a b : Component) : Bool :=
  match a, b with
  | name s, name t => decide (s < t)
  | a, b => decide (a.rank < b.rank)

/-- What a piece of text between two slashes means after the start of a path. -/
def ofPiece? (piece : Text) : Option Component :=
  match piece with
  | [] | ['.'] => none
  | ['.', '.'] => some parent
  | _ => some (name piece)

end Component

namespace Path

instance : Coe String Path := ⟨fun s => ⟨s.toList⟩⟩

/-! ## Components -/

/-- What the first characters of a path say beyond the names that follow. -/
def anchor (p : Path) : Option Component :=
  match p.text with
  | '/' :: _ => some .root
  | ['.'] => some .current
  | '.' :: '/' :: _ => some .current
  | _ => none

/-- The text after the anchor. -/
def body (p : Path) : Text :=
  match p.anchor with
  | none => p.text
  | some _ => p.text.tail

def components (p : Path) : List Component :=
  p.anchor.toList ++ (Text.splitOn '/' p.body).filterMap Component.ofPiece?

/-- The plainest text for a list of components. -/
def ofComponents (cs : List Component) : Path :=
  match cs with
  | .root :: rest => ⟨'/' :: Text.join ['/'] (rest.map Component.text)⟩
  | cs => ⟨Text.join ['/'] (cs.map Component.text)⟩

def isAbsolute (p : Path) : Bool := p.text.head? == some '/'

/-- Two paths with the same components. -/
def same (p q : Path) : Bool := p.components == q.components

/-- Whether some path of the list has the components of `p`. -/
def among (p : Path) (paths : List Path) : Bool :=
  let components := p.components
  paths.any fun q => components == q.components

/-- The order of paths: component by component, a path before its extensions. -/
def compareComponents : List Component → List Component → Ordering
  | [], [] => .eq
  | [], _ :: _ => .lt
  | _ :: _, [] => .gt
  | a :: as, b :: bs =>
    if a.lt b then .lt else if b.lt a then .gt else compareComponents as bs

/-- Whether `p` comes before `q` or has the same components. -/
def le (p q : Path) : Bool := compareComponents p.components q.components != .gt

/-! ## Parts of a path -/

/-- The path without its last component; the root and the empty path have none. -/
def parent? (p : Path) : Option Path :=
  match p.components.getLast? with
  | none | some .root => none
  | some _ => some (ofComponents p.components.dropLast)

/-- The last component, if it is a name. -/
def fileName? (p : Path) : Option Text :=
  match p.components.getLast? with
  | some (.name t) => some t
  | _ => none

/-- `p` followed by `q`; an absolute `q` stands alone. -/
def join (p q : Path) : Path :=
  if q.isAbsolute then q
  else if p.text = [] ∨ p.text.getLast? = some '/' then ⟨p.text ++ q.text⟩
  else ⟨p.text ++ '/' :: q.text⟩

/-! ## Relative paths -/

/-- The text from its first piece that is a component. -/
def skipEmpty : Text → Text
  | '/' :: rest => skipEmpty rest
  | '.' :: '/' :: rest => skipEmpty rest
  | ['.'] => []
  | t => t

/-- The text after its first `n` components. -/
def skipPieces : Nat → Text → Text
  | 0, t => t
  | n + 1, t => skipPieces n ((skipEmpty t).dropWhile (· != '/')).tail

/-- A reversed body from the last character of its last component. -/
def skipEmptyEnd : Text → Text
  | '/' :: rest => skipEmptyEnd rest
  | '.' :: '/' :: rest => skipEmptyEnd ('/' :: rest)
  | ['.'] => []
  | t => t

/-- The text up to the end of its last component. -/
def trimBody (t : Text) : Text := (skipEmptyEnd t.reverse).reverse

/-- The path up to the end of its last component. -/
def trimmed (p : Path) : Path :=
  match p.anchor with
  | none => ⟨trimBody p.body⟩
  | some a => ⟨a.text ++ trimBody p.body⟩

/-- What follows the components of `base` in `p`, written as it is in `p`. -/
def relativeTo? (base p : Path) : Option Path :=
  if base.components.isPrefixOf p.components then
    match base.components.length, p.anchor with
    | 0, _ => some p.trimmed
    | n + 1, none => some ⟨trimBody (skipEmpty (skipPieces (n + 1) p.body))⟩
    | n + 1, some _ => some ⟨trimBody (skipEmpty (skipPieces n p.body))⟩
  else none

/-! ## Extensions -/

/-- The part of a file name before its last dot, and the part after it. A dot in the first
place divides nothing. -/
def splitName (t : Text) : Text × Option Text :=
  if '.' ∈ t then
    let extension := (t.reverse.takeWhile (· != '.')).reverse
    let stem := t.take (t.length - extension.length - 1)
    if stem = [] then (t, none) else (stem, some extension)
  else (t, none)

/-- The path with `extension` after the part of its file name before the last dot. -/
def setExtension (p : Path) (extension : Text) : Path :=
  match p.fileName? with
  | none => p
  | some t =>
    let kept := p.trimmed.text
    ⟨kept.take (kept.length - (t.length - (splitName t).1.length)) ++ '.' :: extension⟩

/-- The path with its extension replaced. The old extension is taken off first, and a path
without a file name then stays as it is. -/
def withExtension (p : Path) (extension : Text) : Path :=
  match p.fileName?.bind fun t => (splitName t).2 with
  | none => p.setExtension extension
  | some old => setExtension ⟨p.text.take (p.text.length - old.length)⟩ extension

end Path

end IncrementalBuild
