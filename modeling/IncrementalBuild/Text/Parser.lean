import IncrementalBuild.Text.Basic
/-!
# Parsers

A parser takes a value from the front of a text or fails. A choice tries its second parser where
the first one failed, and repetition goes on until its parser fails.
-/
namespace IncrementalBuild

/-- A parser gives a value and the text after it. -/
abbrev Parser (α : Type) := StateT Text Option α

namespace Parser

variable {α β : Type}

/-- Takes a character that `accept` admits. -/
def satisfy (accept : Char → Bool) : Parser Char := fun t =>
  match t with
  | [] => none
  | c :: rest => if accept c then some (c, rest) else none

def literal (start : Text) : Parser Unit := fun t =>
  (Text.after? start t).map fun rest => ((), rest)

/-- Takes every character up to the first one that `accept` does not admit. -/
def takeWhile (accept : Char → Bool) : Parser Text := fun t =>
  some (t.takeWhile accept, t.dropWhile accept)

/-- Succeeds at the end of the text. -/
def finish : Parser Unit := fun t => if t.isEmpty then some ((), t) else none

/-- Repeats a parser until it fails, at most once for each character of `budget`. -/
def repeatWithin (p : Parser α) : Text → Text → List α × Text
  | [], t => ([], t)
  | _ :: budget, t =>
    match p t with
    | none => ([], t)
    | some (a, rest) =>
      let (more, rest) := repeatWithin p budget rest
      (a :: more, rest)

/-- Repeats a parser until it fails. The parser takes at least one character each time, so the
text itself bounds the repetition. -/
def many (p : Parser α) : Parser (List α) := fun t => some (repeatWithin p t t)

def atLeastOnce (p : Parser α) : Parser (List α) := do
  let a ← p
  let more ← many p
  return a :: more

def exactly (count : Nat) (p : Parser α) : Parser (List α) :=
  match count with
  | 0 => pure []
  | count + 1 => do
    let a ← p
    let more ← exactly count p
    return a :: more

/-- Takes a value that has to pass a test. -/
def check (p : Parser α) (test : α → Bool) : Parser α := do
  let a ← p
  if test a then return a else failure

/-- The value of a whole text. -/
def run? (p : Parser α) (t : Text) : Option α :=
  match p t with
  | some (a, []) => some a
  | _ => none

end Parser

end IncrementalBuild
