import IncrementalBuild.Compile.Result
/-!
# Compiler targets

A target is an edition of the language: one of a few names, or `es` and a year. The year is read
as a number of 32 bits, so a plus sign and zeros before it do not matter.
-/
namespace IncrementalBuild.Compile

def namedTargets : List String := ["es3", "es5", "es6", "esnext"]

/-- The number of 32 bits that a text is written for: digits, after a plus sign or not. -/
def number32? (t : Text) : Option Nat :=
  let digits := (Text.after? ['+'] t).getD t
  if digits ≠ [] ∧ digits.all Char.isDigit then
    let n := digits.foldl (fun n c => 10 * n + (c.toNat - '0'.toNat)) 0
    if n < UInt32.size then some n else none
  else none

/-- Whether a target is known. Case does not matter. -/
def isTarget (t : Text) : Bool :=
  let t := Text.lowercase t
  namedTargets.any (·.toList == t) ||
    ((Text.after? "es" t).bind number32?).any (2015 ≤ ·)

def targetFault? (target : Option Text) : Option CompileError :=
  match target with
  | none => none
  | some t =>
    if isTarget t then none
    else some (.invalidOption "target" ("unknown target '".toList ++ t ++ "'".toList))

end IncrementalBuild.Compile
