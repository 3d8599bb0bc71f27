import IncrementalBuild.Json.Basic
/-!
# Numbers in JSON

A number without point and exponent is an integer when it fits 64 bits; every other number, and
minus zero, is a double. A double is computed from the leading digits that fit 64 bits and one
multiplication or division by a power of ten, so its last bit can differ from the nearest double.
-/
namespace IncrementalBuild.Json

/-- A number as it is written: sign, digits before and after the point, and the exponent. -/
structure Numeral where
  negative : Bool
  whole : List Nat
  fraction : Option (List Nat)
  exponent : Option (Bool × List Nat)
  deriving Repr, DecidableEq

def digit? (c : Char) : Option Nat := if c.isDigit then some (c.toNat - '0'.toNat) else none

/-- The digits a text starts with, and what follows them. -/
def takeDigits : Text → List Nat × Text
  | [] => ([], [])
  | c :: rest =>
    match digit? c with
    | some d => ((takeDigits rest).map (d :: ·) id)
    | none => ([], c :: rest)

namespace Numeral

/-- Reads a whole text as a numeral: no leading zeros, and digits after a point or an exponent. -/
def ofText? (t : Text) : Option Numeral :=
  let (negative, t) := match t with
    | '-' :: rest => (true, rest)
    | t => (false, t)
  let (whole, t) := takeDigits t
  if whole = [] ∨ (whole.head? = some 0 ∧ 1 < whole.length) then none
  else
    let (fraction, t) := match t with
      | '.' :: rest => ((takeDigits rest).map some id)
      | t => (none, t)
    let (exponent, t) := match t with
      | 'e' :: '+' :: rest | 'E' :: '+' :: rest =>
        ((takeDigits rest).map (fun ds => some (false, ds)) id)
      | 'e' :: '-' :: rest | 'E' :: '-' :: rest =>
        ((takeDigits rest).map (fun ds => some (true, ds)) id)
      | 'e' :: rest | 'E' :: rest =>
        ((takeDigits rest).map (fun ds => some (false, ds)) id)
      | t => (none, t)
    if fraction = some [] ∨ (exponent.map Prod.snd) = some [] ∨ t ≠ [] then none
    else some ⟨negative, whole, fraction, exponent⟩

def value (digits : List Nat) : Nat := digits.foldl (fun n d => 10 * n + d) 0

/-- Extends a number digit by digit while it stays below 2 ^ 64; the rest did not fit. -/
def extend (n : Nat) : List Nat → Nat × List Nat
  | [] => (n, [])
  | d :: rest => if 10 * n + d < UInt64.size then extend (10 * n + d) rest else (n, d :: rest)

def power (e : Nat) : Float := OfScientific.ofScientific 1 false e

/-- `f / 10 ^ e`, taking 308 powers at a time for the first `steps` of them. -/
def scaleDown : Nat → Float → Nat → Float
  | 0, f, e => f / power e
  | steps + 1, f, e => if f == 0 then f else scaleDown steps (f / power 308) (e - 308)

/-- The double for `significand * 10 ^ exponent`, unless it is too large. -/
def double? (significand : Nat) (exponent : Int) : Option Float :=
  let f := significand.toUInt64.toFloat
  if exponent < 0 then
    some (scaleDown ((exponent.natAbs - 1) / 308) f exponent.natAbs)
  else if 308 < exponent then if f == 0 then some f else none
  else
    let scaled := f * power exponent.toNat
    if scaled.isInf then none else some scaled

/-- The significand and the exponent of ten that the digits give. -/
def scientific (n : Numeral) : Nat × Int :=
  let (s, dropped) := extend 0 n.whole
  let fraction := n.fraction.getD []
  let (s, unread) := extend s fraction
  let written : Int := match n.exponent with
    | none => 0
    | some (false, digits) => value digits
    | some (true, digits) => -(value digits : Int)
  (s, dropped.length - (fraction.length - unread.length : Nat) + written)

/-- The double a numeral stands for, unless it is too large. An exponent that does not fit
31 bits counts as too large even for a significand that would take it back. -/
def toDouble? (n : Numeral) : Option Float :=
  let (s, e) := n.scientific
  let size := match n.exponent with
    | some (_, digits) => value digits
    | none => 0
  let magnitude :=
    if size < 1 <<< 31 then double? s e
    else if s ≠ 0 ∧ n.exponent.map Prod.fst = some false then none
    else some 0
  magnitude.map fun f => if n.negative then -f else f

def toJson? (n : Numeral) : Option Json :=
  let v := value n.whole
  if n.fraction = none ∧ n.exponent = none ∧ !n.negative ∧ v < UInt64.size then some (integer v)
  else if n.fraction = none ∧ n.exponent = none ∧ n.negative ∧ 0 < v ∧ v ≤ 1 <<< 63 then
    some (integer (-v))
  else n.toDouble?.map fun f => double f.toBits

end Numeral

end IncrementalBuild.Json
