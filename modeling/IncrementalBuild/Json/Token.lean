import IncrementalBuild.Json.Number
/-!
# Tokens of JSON

A text is read character by character into brackets, commas, colons, words, numbers and strings.
The reader is an automaton, so reading a text in two parts is reading it whole.
-/
namespace IncrementalBuild.Json

inductive Token where
  | openArray
  | closeArray
  | openObject
  | closeObject
  | comma
  | colon
  | value (v : Json)
  deriving Repr, BEq

/-- A part of a string: a character, or a 16-bit unit written as an escape. -/
inductive Piece where
  | char (c : Char)
  | unit (n : Nat)
  deriving Repr, DecidableEq

/-- The characters of a string. Two units that are surrogates of one character make that
character; a surrogate that stands alone makes no string. -/
def combine? : List Piece → Option Text
  | [] => some []
  | .char c :: rest => (combine? rest).map (c :: ·)
  | .unit n :: rest =>
    if 0xD800 ≤ n ∧ n < 0xDC00 then
      match rest with
      | .unit m :: more =>
        if 0xDC00 ≤ m ∧ m < 0xE000 then
          (combine? more).map (Char.ofNat (0x10000 + (n - 0xD800) * 0x400 + (m - 0xDC00)) :: ·)
        else none
      | _ => none
    else if 0xDC00 ≤ n ∧ n < 0xE000 then none
    else (combine? rest).map (Char.ofNat n :: ·)

/-- What the automaton is inside of. Collected characters are last first. -/
inductive Lexing where
  | between
  | word (letters : Text)
  | number (characters : Text)
  | quoted (pieces : List Piece)
  | escaped (pieces : List Piece)
  | hex (pieces : List Piece) (left : Nat) (value : Nat)
  deriving Repr, DecidableEq

def hexDigit? (c : Char) : Option Nat :=
  if c.isDigit then some (c.toNat - '0'.toNat)
  else if 'a' ≤ c ∧ c ≤ 'f' then some (c.toNat - 'a'.toNat + 10)
  else if 'A' ≤ c ∧ c ≤ 'F' then some (c.toNat - 'A'.toNat + 10)
  else none

/-- The character that a letter after a backslash stands for. -/
def escape? : Char → Option Char
  | '"' => some '"'
  | '\\' => some '\\'
  | '/' => some '/'
  | 'b' => some '\x08'
  | 'f' => some '\x0c'
  | 'n' => some '\n'
  | 'r' => some '\r'
  | 't' => some '\t'
  | _ => none

/-- Whether a character can be part of a number. -/
def isNumeric (c : Char) : Bool := c.isDigit || c ∈ ['-', '+', '.', 'e', 'E']

def wordValue? (letters : Text) : Option Json :=
  if letters = "null" then some null
  else if letters = "true" then some (bool true)
  else if letters = "false" then some (bool false)
  else none

namespace Lexing

/-- One character between tokens. -/
def start? (c : Char) : Option (List Token × Lexing) :=
  match c with
  | ' ' | '\n' | '\t' | '\r' => some ([], between)
  | '[' => some ([.openArray], between)
  | ']' => some ([.closeArray], between)
  | '{' => some ([.openObject], between)
  | '}' => some ([.closeObject], between)
  | ',' => some ([.comma], between)
  | ':' => some ([.colon], between)
  | '"' => some ([], quoted [])
  | c =>
    if c.isDigit || c == '-' then some ([], number [c])
    else if c.isLower then some ([], word [c])
    else none

/-- The token of the word or number that ends here. -/
def finish? : Lexing → Option (List Token)
  | between => some []
  | word letters => (wordValue? letters.reverse).map ([.value ·])
  | number cs => ((Numeral.ofText? cs.reverse).bind Numeral.toJson?).map ([.value ·])
  | _ => none

/-- Ends a word or number, and reads one character between tokens. -/
def finishThen? (state : Lexing) (c : Char) : Option (List Token × Lexing) :=
  match state.finish?, start? c with
  | some done, some (next, state) => some (done ++ next, state)
  | _, _ => none

/-- One character: the tokens that are complete with it, and the next state. -/
def step? (state : Lexing) (c : Char) : Option (List Token × Lexing) :=
  match state with
  | between => start? c
  | word letters => if c.isLower then some ([], word (c :: letters)) else finishThen? state c
  | number cs => if isNumeric c then some ([], number (c :: cs)) else finishThen? state c
  | quoted pieces =>
    if c = '"' then (combine? pieces.reverse).map fun t => ([.value (string t)], between)
    else if c = '\\' then some ([], escaped pieces)
    else if c.toNat < 0x20 then none
    else some ([], quoted (.char c :: pieces))
  | escaped pieces =>
    if c = 'u' then some ([], hex pieces 4 0)
    else (escape? c).map fun e => ([], quoted (.char e :: pieces))
  | hex pieces left value =>
    (hexDigit? c).map fun d =>
      let value := 16 * value + d
      if left ≤ 1 then ([], quoted (.unit value :: pieces)) else ([], hex pieces (left - 1) value)

/-- The tokens of a text read from a state. -/
def run? (state : Lexing) : Text → Option (List Token)
  | [] => state.finish?
  | c :: rest => do
    let (tokens, state) ← state.step? c
    let more ← run? state rest
    return tokens ++ more

end Lexing

def tokens? (t : Text) : Option (List Token) := Lexing.between.run? t

end IncrementalBuild.Json
