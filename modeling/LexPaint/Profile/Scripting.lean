import LexPaint.Primitive
/-!
# Scripting languages with hash comments

Python and R have line comments behind a hash sign and no block comments. Python strings end with
their line unless the quotes are tripled; R strings span lines.

## Main definitions

* `Profile.python`, `Profile.r`.
-/

namespace LexPaint

namespace Dialect

/-- Line comments behind a hash sign and nothing else. -/
def hashes : Dialect :=
  { permissive with lineMarks := [mark "#"] }

end Dialect

namespace Profile

/-- The keywords of Python. -/
def pythonWords : List String :=
  ["False", "None", "True", "and", "as", "assert", "async", "await", "break", "class", "continue",
   "def", "del", "elif", "else", "except", "finally", "for", "from", "global", "if", "import",
   "in", "is", "lambda", "nonlocal", "not", "or", "pass", "raise", "return", "self", "try",
   "while", "with", "yield"]

/-- Python. -/
def python : Profile where
  name := "python"
  dialect := .hashes
  program := [
    .setCondition .textBlock,
    .quotes true,
    .lineComments [mark "#"],
    .keywords (pythonWords.map mark) true ['.'] .keyword,
    .brackets,
    .braces]

/-- The keywords of R. -/
def rWords : List String :=
  ["FALSE", "Inf", "NA", "NA_character_", "NA_integer_", "NA_real_", "NULL", "NaN", "TRUE",
   "break", "else", "for", "function", "if", "in", "library", "next", "repeat", "require",
   "return", "while"]

/-- R. -/
def r : Profile where
  name := "r"
  dialect := .hashes
  program := [
    .quotes false,
    .lineComments [mark "#"],
    .keywords (rWords.map mark) true ['.', '$'] .keyword,
    .brackets,
    .braces]

end Profile

end LexPaint
