import IncrementalBuild.Toml.Scalar
/-!
# Reading TOML

A document is a sequence of lines: headers, assignments, comments and empty lines. Fewer than
eighty containers may stand inside each other, and a key has fewer than eighty parts.
-/
namespace IncrementalBuild.Toml

open IncrementalBuild.Parser

/-- Containers and parts of keys are fewer than this. -/
def depthLimit : Nat := 80

/-- A comment up to the end of its line. -/
def comment : Parser Unit := do
  literal ['#']
  let _ ← takeWhile isVisible

/-- Blanks, line breaks and comments. -/
def filler : Parser Unit := do
  let _ ← many ((do let _ ← satisfy isSpace) <|> (do let _ ← optional comment; newline))

/-- One part of a key. -/
def keyPart : Parser Text := atLeastOnce (satisfy isKeyChar) <|> basicString <|> literalString

/-- A key: parts with dots between them. -/
def dottedKey : Parser (List Text) :=
  check (do
      let _ ← spaces
      let first ← keyPart
      let _ ← spaces
      let more ← many (do
        literal ['.']
        let _ ← spaces
        let next ← keyPart
        let _ ← spaces
        return next)
      return first :: more)
    fun parts => parts.length < depthLimit

def assignment (value : Parser Value) : Parser (List Text × Value) := do
  let key ← dottedKey
  literal ['=']
  let _ ← spaces
  return (key, ← value)

/-- Sets a dotted key in a table. -/
def setKey (t : Table) (key : List Text) (v : Value) : Option Table := do
  let last ← key.getLast?
  t.assign key.dropLast last v

/-- An array of values. A comma may follow the last one. -/
def array (value : Parser Value) : Parser Value := do
  literal ['[']
  filler
  let items ← optional (do
    let first ← value
    filler
    let more ← many (do
      literal [',']
      filler
      let next ← value
      filler
      return next)
    let _ ← optional (do literal [',']; filler)
    return first :: more)
  literal [']']
  return .array (items.getD [])

def inlineTable (value : Parser Value) : Parser Value := do
  let member : Parser (List Text × Value) := do
    let m ← assignment value
    let _ ← spaces
    return m
  literal ['\x7b']
  let _ ← spaces
  let members ← optional (do
    let first ← member
    let more ← many (do literal [',']; member)
    return first :: more)
  literal ['\x7d']
  match (members.getD []).foldlM (fun t (k, v) => setKey t k v) (⟨.header, []⟩ : Table) with
  | some t => return .table (finishMembers t.members)
  | none => failure

/-- A value with at most `depth` containers inside each other. -/
def value : Nat → Parser Value
  | 0 => scalar
  | depth + 1 => array (value depth) <|> inlineTable (value depth) <|> scalar

/-- What a line says. -/
inductive Line where
  | blank
  | header (name : List Text)
  | itemHeader (name : List Text)
  | assign (key : List Text) (v : Value)

/-- A line without its line break. -/
def line : Parser Line := do
  let _ ← spaces
  let l ← (do literal "[["; let name ← dottedKey; literal "]]"; return Line.itemHeader name) <|>
    (do literal ['[']; let name ← dottedKey; literal [']']; return Line.header name) <|>
    (do let (k, v) ← assignment (value (depthLimit - 1)); return Line.assign k v) <|>
    pure Line.blank
  let _ ← spaces
  let _ ← optional comment
  return l

def document : Parser (List Line) := do
  let _ ← optional (literal ['\ufeff'])
  let lines ← many (do let l ← line; newline; return l)
  return lines ++ [← line]

/-- The document so far, and the table that assignments go to. -/
structure Building where
  root : Table
  current : List Text

/-- Takes one line in. -/
def Building.add (b : Building) : Line → Option Building
  | .blank => some b
  | .header name => do
    let last ← name.getLast?
    return ⟨← b.root.openTable name.dropLast last, name⟩
  | .itemHeader name => do
    let last ← name.getLast?
    return ⟨← b.root.openItem name.dropLast last, name⟩
  | .assign key v => do
    let root ← b.root.changeAt .implied (fun t => setKey t key v) b.current
    return { b with root }

/-- The table that a text is written for. -/
def ofText? (t : Text) : Option Value := do
  let lines ← document.run? t
  let b ← lines.foldlM Building.add ⟨⟨.header, []⟩, []⟩
  return .table (finishMembers b.root.members)

end IncrementalBuild.Toml
