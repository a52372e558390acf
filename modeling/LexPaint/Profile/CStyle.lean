import LexPaint.Primitive
/-!
# Languages with C-style comments

Java, C# and JavaScript share line comments behind two slashes, block comments between slashes and
stars, and strings that end with their line. Java adds text blocks in tripled quotes.

## Main definitions

* `Profile.java`, `Profile.csharp`, `Profile.javascript`.
-/

namespace LexPaint

namespace CommentRules

/-- Line comments behind two slashes, block comments between slashes and stars, and quotes that
end with their line. -/
def slashes : CommentRules where
  lineMarks := [mark "//"]
  opener := mark "/*"
  closer := mark "*/"
  multilineQuotes := false
  textBlocks := false
  lineFilter := .everywhere

end CommentRules

namespace Dialect

/-- C-style comments and nothing else. -/
def slashes : Dialect :=
  { permissive with lineMarks := [mark "//"], comments := some .slashes }

/-- C-style comments, with text blocks whose opener is the last thing on its line. -/
def java : Dialect :=
  { permissive with
    tests := [(.textBlock, .lastOnLine)]
    lineMarks := [mark "//"]
    comments := some { CommentRules.slashes with textBlocks := true } }

end Dialect

namespace Profile

/-- The keywords of Java. -/
def javaWords : List String :=
  ["abstract", "assert", "boolean", "break", "byte", "case", "catch", "char", "class", "const",
   "continue", "default", "do", "double", "else", "enum", "extends", "false", "final", "finally",
   "float", "for", "goto", "if", "implements", "import", "instanceof", "int", "interface", "long",
   "native", "new", "null", "package", "permits", "private", "protected", "public", "record",
   "return", "sealed", "short", "static", "strictfp", "super", "switch", "synchronized", "this",
   "throw", "throws", "transient", "true", "try", "var", "void", "volatile", "while", "yield"]

/-- Java. -/
def java : Profile where
  name := "java"
  dialect := .java
  program := [
    .setCondition .textBlock,
    .quotes true,
    .lineComments [mark "//"],
    .blockComments (mark "/*") (mark "*/") true,
    .keywords (javaWords.map mark) true ['@'] .keyword,
    .brackets,
    .braces]

/-- The keywords of C#. -/
def csharpWords : List String :=
  ["abstract", "as", "async", "await", "base", "bool", "break", "byte", "case", "catch", "char",
   "checked", "class", "const", "continue", "decimal", "default", "delegate", "do", "double",
   "else", "enum", "event", "explicit", "extern", "false", "finally", "fixed", "float", "for",
   "foreach", "get", "goto", "if", "implicit", "in", "int", "interface", "internal", "is", "lock",
   "long", "namespace", "new", "null", "object", "operator", "out", "override", "params",
   "partial", "private", "protected", "public", "readonly", "record", "ref", "return", "sbyte",
   "sealed", "set", "short", "sizeof", "stackalloc", "static", "string", "struct", "switch",
   "this", "throw", "true", "try", "typeof", "uint", "ulong", "unchecked", "unsafe", "ushort",
   "using", "var", "virtual", "void", "volatile", "where", "while", "yield"]

/-- C#. -/
def csharp : Profile where
  name := "csharp"
  dialect := .slashes
  program := [
    .quotes true,
    .lineComments [mark "//"],
    .blockComments (mark "/*") (mark "*/") true,
    .keywords (csharpWords.map mark) true ['@', '.'] .keyword,
    .brackets,
    .braces]

/-- The keywords of JavaScript. -/
def javascriptWords : List String :=
  ["async", "await", "break", "case", "catch", "class", "const", "continue", "debugger",
   "default", "delete", "do", "else", "export", "extends", "false", "finally", "for", "from",
   "function", "if", "import", "in", "instanceof", "let", "new", "null", "of", "return", "static",
   "super", "switch", "this", "throw", "true", "try", "typeof", "undefined", "var", "void",
   "while", "with", "yield"]

/-- JavaScript. -/
def javascript : Profile where
  name := "javascript"
  dialect := .slashes
  program := [
    .quotes true,
    .lineComments [mark "//"],
    .blockComments (mark "/*") (mark "*/") true,
    .keywords (javascriptWords.map mark) true ['.', '$'] .keyword,
    .brackets,
    .braces]

end Profile

end LexPaint
