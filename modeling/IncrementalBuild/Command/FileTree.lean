import IncrementalBuild.Path.Normal
import IncrementalBuild.Session.Loader
/-!
# File trees

The files and directories that a command finds. A path is followed piece by piece from the root;
every place on the way has to be a directory. Operations that fail give the reason in the words
of the operating system.
-/
namespace IncrementalBuild

/-- Why a file tree does not do what is asked. -/
inductive FileError where
  | missing
  | occupied
  | notDirectory
  | isDirectory
  | nameTooLong
  | nulCharacter
  | notText
  | refused (reason : Text)
  deriving DecidableEq, Repr

def FileError.message : FileError → Text
  | missing => "No such file or directory (os error 2)"
  | occupied => "File exists (os error 17)"
  | notDirectory => "Not a directory (os error 20)"
  | isDirectory => "Is a directory (os error 21)"
  | nameTooLong => "File name too long (os error 36)"
  | nulCharacter => "file name contained an unexpected NUL byte"
  | notText => "stream did not contain valid UTF-8"
  | refused reason => reason

/-- What stands at a place: a directory, a file with its text, or a file that cannot be read. -/
inductive TreeEntry where
  | directory
  | file (text : Text)
  | unreadable (reason : FileError)
  deriving DecidableEq, Repr

/-- A place in a tree: the names that lead to it from the root. -/
abbrev Place := List Text

def Place.path (place : Place) : Path := ⟨'/' :: Text.join ['/'] place⟩

/-- A file tree: what stands at each place. Every place occurs once. -/
structure FileTree where
  entries : List (Place × TreeEntry)
  deriving DecidableEq, Repr

namespace FileTree

def empty : FileTree := ⟨[]⟩

/-- What stands at a place. The root is a directory. -/
def entry? (t : FileTree) (place : Place) : Option TreeEntry :=
  if place = [] then some .directory else (t.entries.find? (·.1 == place)).map (·.2)

/-- Puts an entry at a place, whatever stands there. -/
def put (t : FileTree) (place : Place) (e : TreeEntry) : FileTree :=
  ⟨(place, e) :: t.entries.filter (·.1 != place)⟩

/-! ## Following paths -/

def nameLimit : Nat := 255

def pathLimit : Nat := 4095

/-- The pieces along which a path is followed. A path with a NUL character or with too many bytes
is refused before its first piece, whatever the tree has. -/
def pieces (p : Path) : Except FileError (List Text) :=
  if '\x00' ∈ p.text then .error .nulCharacter
  else if pathLimit < Text.byteLength p.text then .error .nameTooLong
  else .ok (Text.splitOn '/' p.text)

/-- The place that a piece of a path leads to from a directory. -/
def follow (place : Place) (piece : Text) : Except FileError Place :=
  match Component.ofPiece? piece with
  | some .parent => .ok place.dropLast
  | some (.name t) =>
    if nameLimit < Text.byteLength t then .error .nameTooLong else .ok (place ++ [t])
  | _ => .ok place

/-- Follows pieces of a path from a place. Nothing need stand at the end of the way. -/
def walk (t : FileTree) (place : Place) : List Text → Except FileError Place
  | [] => .ok place
  | piece :: rest =>
    match t.entry? place with
    | none => .error .missing
    | some .directory =>
      match follow place piece with
      | .ok next => walk t next rest
      | .error e => .error e
    | some _ => .error .notDirectory

/-- The place that an absolute path leads to. -/
def locate (t : FileTree) (p : Path) : Except FileError Place :=
  match pieces p with
  | .error e => .error e
  | .ok along => t.walk [] along

/-- What stands at a path, if anything does. -/
def find? (t : FileTree) (p : Path) : Option TreeEntry := (t.locate p).toOption.bind t.entry?

def isDirectory (t : FileTree) (p : Path) : Bool := t.find? p == some .directory

def isFile (t : FileTree) (p : Path) : Bool := (t.find? p).any (· != .directory)

def read (t : FileTree) (p : Path) : Except FileError Text :=
  match t.locate p with
  | .error e => .error e
  | .ok place =>
    match t.entry? place with
    | none => .error .missing
    | some .directory => .error .isDirectory
    | some (.file text) => .ok text
    | some (.unreadable reason) => .error reason

/-! ## Writing -/

/-- Makes directories along pieces of a path, from a place on. Those in front of one that cannot be
made are there afterwards. -/
def makeAlong (t : FileTree) (place : Place) : List Text → Except FileError Unit × FileTree
  | [] => (.ok (), t)
  | piece :: rest =>
    match follow place piece with
    | .error e => (.error e, t)
    | .ok next =>
      match t.entry? next with
      | some .directory => makeAlong t next rest
      | some _ => (.error (if rest.isEmpty then .occupied else .notDirectory), t)
      | none => makeAlong (t.put next .directory) next rest

def attemptDirectories (t : FileTree) (p : Path) : Except FileError Unit × FileTree :=
  match pieces p with
  | .error e => (.error e, t)
  | .ok along => t.makeAlong [] along

/-- Writes a file in a directory that is there, over the file that stands at its path. -/
def write (t : FileTree) (p : Path) (text : Text) : Except FileError FileTree :=
  match t.locate p with
  | .error e => .error e
  | .ok place =>
    if t.entry? place = some .directory then .error .isDirectory
    else .ok (t.put place (.file text))

/-- Tries to write a file, after the directories that it stands in are made. -/
def attempt (t : FileTree) (p : Path) (text : Text) : Except FileError Unit × FileTree :=
  let (made, t) : Except FileError Unit × FileTree := match p.parent? with
    | none => (.ok (), t)
    | some dir => t.attemptDirectories dir
  match made, t.write p text with
  | .error e, _ => (.error e, t)
  | .ok (), .error e => (.error e, t)
  | .ok (), .ok t => (.ok (), t)

/-- The tree after an attempt that came through. -/
def completed : Except FileError Unit × FileTree → Except FileError FileTree
  | (.ok (), t) => .ok t
  | (.error e, _) => .error e

/-- The tree with a directory and those that it stands in. -/
def makeDirectories (t : FileTree) (p : Path) : Except FileError FileTree :=
  completed (t.attemptDirectories p)

/-- The tree with a file and the directories that it stands in. -/
def create (t : FileTree) (p : Path) (text : Text) : Except FileError FileTree :=
  completed (t.attempt p text)

/-! ## Texts of a tree -/

/-- The files that can be read, under their paths. -/
def texts (t : FileTree) : List (Path × Text) :=
  t.entries.filterMap fun (place, e) =>
    match e with
    | .file text => some (Place.path place, text)
    | _ => none

/-- The files of `t` that `before` does not have with the same text. -/
def written (before t : FileTree) : List (Path × Text) :=
  t.texts.filter (· ∉ before.texts)

def loader (t : FileTree) (workingDirectory : Path) : Loader where
  workingDirectory
  files := t.texts
  missing p :=
    match t.read p with
    | .ok _ => []
    | .error e => e.message

end FileTree

end IncrementalBuild
