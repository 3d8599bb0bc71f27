import IncrementalBuild.Source.Cache
/-!
# Excerpts

An excerpt shows the line of a file in which a span starts, and carets below it. Columns and
carets are counted in bytes, while the line is shown as characters.
-/
namespace IncrementalBuild

/-- The line of a text in which byte `offset` lies, without its newline. `before` holds the
characters of the line so far, last first. A byte past the end lies in the last line. -/
def Text.lineAround (before : Text) (offset : Nat) : Text → Text
  | [] => before.reverse
  | c :: rest =>
    if offset < c.utf8Size then before.reverse ++ (c :: rest).takeWhile (· != '\n')
    else if c = '\n' then lineAround [] (offset - c.utf8Size) rest
    else lineAround (c :: before) (offset - c.utf8Size) rest

/-- The line of a text in which byte `offset` lies, without its line end. -/
def Text.lineAt (t : Text) (offset : Nat) : Text :=
  dropEndWhile (· == '\r') (lineAround [] offset t)

/-- A line of a file, the blanks before the carets, and the number of carets. -/
structure Excerpt where
  number : Nat
  line : Text
  padding : Nat
  carets : Nat
  deriving DecidableEq, Repr

namespace Excerpt

/-- The excerpt for a span of a file. There is at least one caret. -/
def ofSpan (f : SourceFile) (s : Span) : Excerpt :=
  let start := (f.position s.start).inWords
  { number := start.line
    line := f.content.lineAt s.start
    padding := start.column - 1
    carets := max s.length 1 }

/-- The lines of an excerpt: an empty gutter, the numbered line, and the carets with a remark. -/
def text (e : Excerpt) (remark : Text) : Text :=
  let number := Text.ofNat e.number
  let gutter := List.replicate number.length ' '
  gutter ++ " |\n".toList ++ number ++ " | ".toList ++ e.line ++ "\n".toList ++ gutter ++
    " | ".toList ++ List.replicate e.padding ' ' ++ List.replicate e.carets '^' ++ remark ++
    "\n".toList

end Excerpt

end IncrementalBuild
