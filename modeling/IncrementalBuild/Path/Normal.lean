import IncrementalBuild.Path.Basic
/-!
# Normal form

A path in normal form has no dot components, and parent components only at the front of a
relative path. Normalizing looks at the text alone, never at a file tree. Resolving a path
against a base directory gives the normal form of the two joined.
-/
namespace IncrementalBuild.Path

/-- The components kept so far, last first, with one more component folded in. A parent
component takes back a name, means nothing at the root, and stays otherwise. -/
def fold (kept : List Component) : Component → List Component
  | .current => kept
  | .parent =>
    match kept with
    | .name _ :: rest => rest
    | .root :: rest => .root :: rest
    | kept => .parent :: kept
  | c => c :: kept

/-- The components of the normal form. -/
def foldAll (cs : List Component) : List Component := (cs.foldl fold []).reverse

def normalize (p : Path) : Path := ofComponents (foldAll p.components)

/-- Whether a path is written in normal form. -/
def IsNormal (p : Path) : Prop := p.normalize = p

instance (p : Path) : Decidable p.IsNormal := inferInstanceAs (Decidable (_ = _))

/-- The normal form of `target` as seen from the directory `base`. -/
def resolve (base target : Path) : Path := (base.join target).normalize

end IncrementalBuild.Path
