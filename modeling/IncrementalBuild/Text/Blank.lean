import IncrementalBuild.Text.Basic
/-!
# Blank characters

The characters with the Unicode property `White_Space`, and texts with such characters removed
at an end.
-/
namespace IncrementalBuild.Text

/-- The ranges of code points with the property `White_Space`, in increasing order. -/
def blankRanges : List (Nat × Nat) :=
  [(0x09, 0x0D), (0x20, 0x20), (0x85, 0x85), (0xA0, 0xA0), (0x1680, 0x1680), (0x2000, 0x200A),
    (0x2028, 0x2029), (0x202F, 0x202F), (0x205F, 0x205F), (0x3000, 0x3000)]

/-- Whether a character is white space. -/
def isBlank (c : Char) : Bool := blankRanges.any fun (lo, hi) => lo ≤ c.toNat && c.toNat ≤ hi

def allBlank (t : Text) : Bool := t.all isBlank

/-- The text from its first character that is not blank. -/
def trimStart (t : Text) : Text := t.dropWhile isBlank

/-- The text up to its last character that `drop` does not accept. -/
def dropEndWhile (drop : Char → Bool) (t : Text) : Text :=
  t.foldr (fun c kept => if kept.isEmpty && drop c then [] else c :: kept) []

/-- The text up to its last character that is not blank. -/
def trimEnd (t : Text) : Text := dropEndWhile isBlank t

/-- The text between its first and its last character that is not blank. -/
def trim (t : Text) : Text := trimEnd (trimStart t)

/-- The white space a text starts with. -/
def indent (t : Text) : Text := t.takeWhile isBlank

theorem indent_append_trimStart (t : Text) : indent t ++ trimStart t = t :=
  List.takeWhile_append_dropWhile

end IncrementalBuild.Text
