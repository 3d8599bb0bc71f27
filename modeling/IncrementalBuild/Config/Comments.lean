import IncrementalBuild.Text.Basic
/-!
# Comments in JSON

A project file is JSON with line comments and block comments. Comments are blanked rather than
removed, so every other character keeps its line and its column. Inside strings nothing is a
comment.
-/
namespace IncrementalBuild.Config

inductive Region where
  | code
  | string
  | escape
  | line
  | block
  deriving DecidableEq, Repr

/-- Blanks the comments of a text that starts in a region. Line breaks stay, and so do carriage
returns in block comments. -/
def blankComments : Region → Text → Text
  | _, [] => []
  | .code, '"' :: rest => '"' :: blankComments .string rest
  | .code, '/' :: '/' :: rest => ' ' :: ' ' :: blankComments .line rest
  | .code, '/' :: '*' :: rest => ' ' :: ' ' :: blankComments .block rest
  | .code, c :: rest => c :: blankComments .code rest
  | .string, '\\' :: rest => '\\' :: blankComments .escape rest
  | .string, '"' :: rest => '"' :: blankComments .code rest
  | .string, c :: rest => c :: blankComments .string rest
  | .escape, c :: rest => c :: blankComments .string rest
  | .line, '\n' :: rest => '\n' :: blankComments .code rest
  | .line, _ :: rest => ' ' :: blankComments .line rest
  | .block, '*' :: '/' :: rest => ' ' :: ' ' :: blankComments .code rest
  | .block, '\n' :: rest => '\n' :: blankComments .block rest
  | .block, '\r' :: rest => '\r' :: blankComments .block rest
  | .block, _ :: rest => ' ' :: blankComments .block rest

/-- A text with its comments blanked. -/
def stripComments (t : Text) : Text := blankComments .code t

end IncrementalBuild.Config
