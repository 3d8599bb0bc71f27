import IncrementalBuild.Json.Basic
import IncrementalBuild.Json.Double
/-!
# Writing JSON

The compact form has no blanks. The indented form puts each item and member on a line of its own,
two blanks deeper than its container, and writes an empty container without a line break.
-/
namespace IncrementalBuild.Json

def hexDigit (n : Nat) : Char := Nat.digitChar n

/-- How a character stands inside quotes. -/
def escape (c : Char) : Text :=
  match c with
  | '"' => ['\\', '"']
  | '\\' => ['\\', '\\']
  | '\x08' => ['\\', 'b']
  | '\x0c' => ['\\', 'f']
  | '\n' => ['\\', 'n']
  | '\r' => ['\\', 'r']
  | '\t' => ['\\', 't']
  | c =>
    if c.toNat < 0x20 then
      ['\\', 'u', '0', '0', hexDigit (c.toNat / 16), hexDigit (c.toNat % 16)]
    else [c]

def quote (t : Text) : Text := '"' :: t.flatMap escape ++ ['"']

def integerText (n : Int) : Text :=
  if n < 0 then '-' :: Text.ofNat n.natAbs else Text.ofNat n.natAbs

/-- A positive double. Its point stands among the digits or near them, or an exponent of ten says
how far away it is. -/
def Magnitude.text (m : Magnitude) : Text :=
  let (n, power) := m.shortest
  let digits := Text.ofNat n
  let point := digits.length + power
  if 0 ≤ power ∧ point ≤ 16 then digits ++ List.replicate power.toNat '0' ++ ".0"
  else if 0 < point ∧ point ≤ 16 then
    digits.take point.toNat ++ '.' :: digits.drop point.toNat
  else if -5 < point ∧ point ≤ 0 then "0." ++ List.replicate (-point).toNat '0' ++ digits
  else
    let fraction := digits.drop 1
    digits.take 1 ++ (if fraction = [] then [] else '.' :: fraction) ++
      'e' :: integerText (point - 1)

/-- A double, or `null` for what is no number. -/
def doubleText (bits : UInt64) : Text :=
  let sign : Text := if bits.toNat >>> 63 = 1 then ['-'] else []
  let m := Magnitude.ofBits bits
  if m.place = 0x7FF then "null"
  else if m.mantissa = 0 then sign ++ "0.0"
  else sign ++ m.text

mutual

def compact : Json → Text
  | null => "null"
  | bool b => if b then "true" else "false"
  | integer n => integerText n
  | double bits => doubleText bits
  | string t => quote t
  | array items => '[' :: compactItems items ++ [']']
  | object members => '{' :: compactMembers members ++ ['}']

def compactItems : List Json → Text
  | [] => []
  | [v] => compact v
  | v :: w :: rest => compact v ++ ',' :: compactItems (w :: rest)

def compactMembers : List (Text × Json) → Text
  | [] => []
  | [(k, v)] => quote k ++ ':' :: compact v
  | (k, v) :: m :: rest => quote k ++ ':' :: compact v ++ ',' :: compactMembers (m :: rest)

end

/-- A line break and the blanks that start a line `depth` containers deep. -/
def newline (depth : Nat) : Text := '\n' :: List.replicate (2 * depth) ' '

mutual

/-- The indented form of a value inside `depth` containers. -/
def indented (depth : Nat) : Json → Text
  | array [] => "[]"
  | array (v :: rest) => '[' :: indentedItems (depth + 1) (v :: rest) ++ newline depth ++ [']']
  | object [] => ['{', '}']
  | object (m :: rest) => '{' :: indentedMembers (depth + 1) (m :: rest) ++ newline depth ++ ['}']
  | v => compact v

def indentedItems (depth : Nat) : List Json → Text
  | [] => []
  | [v] => newline depth ++ indented depth v
  | v :: w :: rest => newline depth ++ indented depth v ++ ',' :: indentedItems depth (w :: rest)

def indentedMembers (depth : Nat) : List (Text × Json) → Text
  | [] => []
  | [(k, v)] => newline depth ++ quote k ++ ':' :: ' ' :: indented depth v
  | (k, v) :: m :: rest =>
    newline depth ++ quote k ++ ':' :: ' ' :: indented depth v ++
      ',' :: indentedMembers depth (m :: rest)

end

end IncrementalBuild.Json
