/-!
# Digits of doubles

A double is written with as few digits as no other double is nearest to, and of these with the
nearest to it.
-/
namespace IncrementalBuild.Json

/-- A finite double without its sign: `mantissa` units of `2 ^ (place - 1075)`. -/
structure Magnitude where
  mantissa : Nat
  place : Nat
  deriving DecidableEq, Repr

namespace Magnitude

/-- The magnitude that the bits of a double give. Doubles with few bits share the least place. -/
def ofBits (bits : UInt64) : Magnitude :=
  let place := bits.toNat >>> 52 % 0x800
  let fraction := bits.toNat % (1 <<< 52)
  if place = 0 then ⟨fraction, 1⟩ else ⟨(1 <<< 52) + fraction, place⟩

def unit (m : Magnitude) : Rat := 2 ^ (m.place - 1075 : Int)

def value (m : Magnitude) : Rat := m.mantissa * m.unit

/-- How far below it the next double is. It is half as far where the place changes. -/
def gapBelow (m : Magnitude) : Rat :=
  if m.mantissa = 1 <<< 52 ∧ 1 < m.place then m.unit / 2 else m.unit

/-- Whether no other double is nearer to a number. Halfway between two of them it is the one with
the even mantissa that counts. -/
def isNearest (m : Magnitude) (q : Rat) : Bool :=
  let low := m.value - m.gapBelow / 2
  let high := m.value + m.unit / 2
  if m.mantissa % 2 = 0 then low ≤ q && q ≤ high else low < q && q < high

/-- The number of times that a power of ten is taken for the double, if there is one. -/
def timesTen? (m : Magnitude) (power : Int) : Option Nat :=
  let times := m.value / 10 ^ power
  let below := times.floor.toNat
  let rest := times - below
  let upwards : Bool := 1 / 2 < rest || (rest == 1 / 2 && below % 2 == 1)
  (if upwards then [below + 1, below] else [below, below + 1]).find? fun n =>
    m.isNearest (n * 10 ^ power)

/-- The fewest digits for a double, and the power of ten of the last one. No double is as large as
`10 ^ 309`, and each of them has digits above `10 ^ -325`. -/
def shortest (m : Magnitude) : Nat × Int :=
  let powers := (List.range 633).map fun (i : Nat) => (308 - i : Int)
  (powers.findSome? fun power => (m.timesTen? power).map (·, power)).getD (0, 0)

end Magnitude

end IncrementalBuild.Json
