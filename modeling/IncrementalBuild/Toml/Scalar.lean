import IncrementalBuild.Text.Parser
import IncrementalBuild.Json.Token
import IncrementalBuild.Toml.Tree
/-!
# Strings, numbers and dates of TOML
-/
namespace IncrementalBuild.Toml

open IncrementalBuild.Parser

/-! ## Characters -/

/-- The character that encloses literal strings. -/
def apostrophe : Char := Char.ofNat 39

def isSpace (c : Char) : Bool := c == ' ' || c == '\t'

/-- A character that may stand in a comment. -/
def isVisible (c : Char) : Bool := c == '\t' || (0x20 ≤ c.toNat && c.toNat != 0x7F)

def isBasic (c : Char) : Bool := isVisible c && c != '"' && c != '\\'

def isLiteral (c : Char) : Bool := isVisible c && c != apostrophe

def isKeyChar (c : Char) : Bool := c.isAlphanum || c == '_' || c == '-'

def spaces : Parser Text := takeWhile isSpace

/-- A line break: a line feed, after a carriage return or not. -/
def newline : Parser Unit := literal "\n" <|> literal "\r\n"

/-! ## Strings -/

/-- The character with a code point of `count` hexadecimal digits. -/
def codePoint (count : Nat) : Parser Text := do
  let digits ← exactly count (satisfy fun c => (Json.hexDigit? c).isSome)
  let n := (digits.filterMap Json.hexDigit?).foldl (fun n d => 16 * n + d) 0
  if n.isValidChar then return [Char.ofNat n] else failure

/-- The character that a sequence after a backslash stands for. -/
def escapeSequence : Parser Text := do
  let c ← satisfy fun _ => true
  match c with
  | '"' => return ['"']
  | '\\' => return ['\\']
  | 'b' => return ['\x08']
  | 'f' => return ['\x0c']
  | 'n' => return ['\n']
  | 'r' => return ['\r']
  | 't' => return ['\t']
  | 'u' => codePoint 4
  | 'U' => codePoint 8
  | _ => failure

/-- A string between double quotes on one line. -/
def basicString : Parser Text := do
  literal ['"']
  let pieces ← many ((do return [← satisfy isBasic]) <|> (do literal ['\\']; escapeSequence))
  literal ['"']
  return pieces.flatten

/-- A string between apostrophes on one line. -/
def literalString : Parser Text := do
  literal [apostrophe]
  let t ← takeWhile isLiteral
  literal [apostrophe]
  return t

/-- One or two quotes that do not end a string of several lines. -/
def innerQuotes (quote : Char) : Parser Text := fun t =>
  match t.takeWhile (· == quote) with
  | [a] => some ([a], t.drop 1)
  | [a, b] => some ([a, b], t.drop 2)
  | _ => none

/-- The three quotes that end a string of several lines, after up to two of its own. -/
def closingQuotes (quote : Char) : Parser Text := fun t =>
  let run := (t.takeWhile (· == quote)).length
  if run < 3 then none
  else
    let taken := min run 5
    some (List.replicate (taken - 3) quote, t.drop taken)

/-- A backslash at the end of a line: it takes the line break and all blanks after it. -/
def lineContinuation : Parser Text := do
  literal ['\\']
  let _ ← spaces
  newline
  let _ ← many ((do let _ ← satisfy isSpace) <|> newline)
  return []

/-- A string of several lines. A line break right after the opening quotes is not part of it. -/
def multiline (quote : Char) (piece : Parser Text) : Parser Text := do
  literal [quote, quote, quote]
  let _ ← optional newline
  let pieces ← many (piece <|> (do newline; return ['\n']) <|> innerQuotes quote)
  let last ← closingQuotes quote
  return pieces.flatten ++ last

/-- A string of several lines between double quotes. -/
def multilineBasic : Parser Text :=
  multiline '"' ((do return [← satisfy isBasic]) <|> lineContinuation <|>
    (do literal ['\\']; escapeSequence))

/-- A string of several lines between apostrophes. -/
def multilineLiteral : Parser Text := multiline apostrophe (do return [← satisfy isLiteral])

def anyString : Parser Text :=
  multilineBasic <|> multilineLiteral <|> basicString <|> literalString

/-! ## Numbers -/

/-- Digits with single underscores between them. -/
def digitsOf (isDigit : Char → Bool) : Parser Text := do
  let first ← satisfy isDigit
  let more ← many (do
    let _ ← optional (literal ['_'])
    satisfy isDigit)
  return first :: more

/-- The number that digits of a base stand for. -/
def numberOf (base : Nat) (digits : Text) : Nat :=
  (digits.filterMap Json.hexDigit?).foldl (fun n d => base * n + d) 0

def sign : Parser Bool :=
  (do literal ['-']; return true) <|> (do literal ['+']; return false) <|> pure false

/-- A decimal number without leading zeros. -/
def decimal : Parser Text :=
  check (digitsOf Char.isDigit) fun digits => digits.head? != some '0' || digits.length == 1

/-- An integer of 64 bits. -/
def integer : Parser Value := do
  let based (start : Text) (base : Nat) (isDigit : Char → Bool) : Parser Int := do
    literal start
    return numberOf base (← digitsOf isDigit)
  let n ← based "0x" 16 (fun c => (Json.hexDigit? c).isSome) <|>
    based "0o" 8 (fun c => '0' ≤ c && c ≤ '7') <|>
    based "0b" 2 (fun c => c == '0' || c == '1') <|> (do
      let negative ← sign
      let n : Int := numberOf 10 (← decimal)
      return if negative then -n else n)
  if Int64.minValue.toInt ≤ n ∧ n ≤ Int64.maxValue.toInt then return .integer n else failure

/-- Whether `m * 10 ^ e` is too large for a double. -/
def overflows (m : Nat) (e : Int) : Bool :=
  let size := (Nat.toDigits 10 m).length + e
  let limit := ((1 <<< 54) - 1) <<< 970
  if m = 0 ∨ size < 300 then false
  else if 400 < size then true
  else if 0 ≤ e then limit ≤ m * Nat.pow 10 e.toNat
  else limit * Nat.pow 10 e.natAbs ≤ m

/-- A float. A positive one that is too large is refused. -/
def float : Parser Value := do
  let negative ← sign
  let special : Parser Bool := do
    literal "inf" <|> literal "nan"
    return false
  let exponent : Parser Int := do
    literal ['e'] <|> literal ['E']
    let negative ← sign
    let n : Int := numberOf 10 (← digitsOf Char.isDigit)
    return if negative then -n else n
  let written : Parser Bool := do
    let whole ← decimal
    let fraction ← optional (do literal ['.']; digitsOf Char.isDigit)
    let power ← match fraction with
      | none => (do return some (← exponent))
      | some _ => optional exponent
    let fraction := fraction.getD []
    return overflows (numberOf 10 (whole ++ fraction)) (power.getD 0 - fraction.length)
  let tooLarge ← special <|> written
  if tooLarge && !negative then failure else return .float

/-! ## Dates and times -/

/-- A number of exactly `count` digits in a range. -/
def fixed (count low high : Nat) : Parser Nat :=
  check (do return numberOf 10 (← exactly count (satisfy Char.isDigit)))
    fun n => low ≤ n && n ≤ high

/-- The number of days of a month. -/
def daysIn (year month : Nat) : Nat :=
  if month = 2 then
    if year % 4 = 0 ∧ (year % 100 ≠ 0 ∨ year % 400 = 0) then 29 else 28
  else if month ∈ [4, 6, 9, 11] then 30
  else 31

def date : Parser Unit := do
  let year ← fixed 4 0 9999
  literal ['-']
  let month ← fixed 2 1 12
  literal ['-']
  let _ ← fixed 2 1 (daysIn year month)

def time : Parser Unit := do
  let _ ← fixed 2 0 23
  literal [':']
  let _ ← fixed 2 0 59
  literal [':']
  let _ ← fixed 2 0 60
  let _ ← optional (do literal ['.']; atLeastOnce (satisfy Char.isDigit))

/-- The distance of a time from universal time. -/
def zone : Parser Unit :=
  literal ['Z'] <|> literal ['z'] <|> (do
    literal ['+'] <|> literal ['-']
    let _ ← fixed 2 0 23
    literal [':']
    let _ ← fixed 2 0 59)

def datetime : Parser Value := do
  let both : Parser Unit := do
    date
    let _ ← optional (do
      literal ['T'] <|> literal ['t'] <|> literal [' ']
      time
      let _ ← optional zone)
  both <|> time
  return .datetime

def boolean : Parser Value :=
  (do literal "true"; return .boolean true) <|> (do literal "false"; return .boolean false)

/-- A value that holds no other values. -/
def scalar : Parser Value :=
  (do return .string (← anyString)) <|> boolean <|> datetime <|> float <|> integer

end IncrementalBuild.Toml
