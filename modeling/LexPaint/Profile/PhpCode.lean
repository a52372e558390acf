import LexPaint.Profile.Variables
/-!
# PHP code

The code between the marks of a PHP section. It has heredocs, strings that span lines, two line
comment marks of which the hash sign is none before a square bracket, and block comments.

## Main definitions

* `Profile.phpCode`.
-/

namespace LexPaint

namespace Dialect

/-- The comments and quotes of PHP code. -/
def phpComments : CommentRules where
  lineMarks := [mark "//", mark "#"]
  opener := mark "/*"
  closer := mark "*/"
  multilineQuotes := true
  textBlocks := false
  lineFilter := .notAttribute

/-- The heredocs of PHP: three angle brackets, blanks and a tag. -/
def phpHeredocs : HeredocRules where
  opener := mark "<<<"
  indentFlag := none
  blanksBeforeTag := true
  terminator := .flexible

/-- The rules of PHP code. -/
def phpCode : Dialect where
  tests := [
    (.commentMark, .filteredMark .notAttribute),
    (.sigil, .nameFollows),
    (.heredoc, .unquoted)]
  lineMarks := [mark "//", mark "#"]
  lineFilter := .notAttribute
  comments := some phpComments
  heredocs := some phpHeredocs
  operators := none

end Dialect

namespace Profile

/-- The keywords of PHP. -/
def phpWords : List String :=
  ["abstract", "and", "array", "as", "break", "case", "catch", "class", "clone", "const",
   "continue", "declare", "default", "do", "echo", "else", "elseif", "empty", "enum", "extends",
   "false", "final", "finally", "fn", "for", "foreach", "function", "global", "if", "implements",
   "include", "include_once", "instanceof", "interface", "isset", "list", "match", "namespace",
   "new", "null", "or", "print", "private", "protected", "public", "readonly", "require",
   "require_once", "return", "static", "switch", "throw", "trait", "true", "try", "unset", "use",
   "var", "while", "xor", "yield"]

/-- PHP code without its surroundings. -/
def phpCode : Profile where
  name := "php-code"
  dialect := .phpCode
  program := [
    .heredocs,
    .quotes false,
    .setCondition .commentMark,
    .lineComments [mark "//", mark "#"],
    .blockComments (mark "/*") (mark "*/") true,
    .keywords (phpWords.map mark) true ['$', '>', ':'] .keyword,
    .setCondition .sigil,
    .signedVariable '$' variableEnds [],
    .brackets,
    .braces]

end Profile

end LexPaint
