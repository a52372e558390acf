import LexPaint.Dialect
import LexPaint.Style
/-!
# Primitives and profiles

A language is lexed by a fixed list of primitives. Each maps or paints one kind of token, and the
effects of earlier primitives are visible to later ones: heredocs and quote operators come before
quotes, quotes before comments, and comments before everything that must not color commented text.

## Main definitions

* `Primitive`: one step of a pass, with the steps of embedded languages inside it.
* `Profile`: a name, a dialect and a list of primitives.
-/

namespace LexPaint

/-- One step of a pass over a scope. -/
inductive Primitive where
  /-- Tags the next primitive that looks at conditions. -/
  | setCondition (condition : Condition)
  /-- Maps strings; with `singleLine` an unclosed one ends with its line. -/
  | quotes (singleLine : Bool)
  /-- Maps line comments opened by any of the marks. -/
  | lineComments (marks : List Mark)
  /-- Maps block comments; with `ignoreQuoted` an open mark inside quotes does not count. -/
  | blockComments (opener closer : Mark) (ignoreQuoted : Bool)
  /-- Paints words, where `wholeWord` keeps off longer words and none of `notAfter` precedes. -/
  | keywords (words : List Mark) (wholeWord : Bool) (notAfter : List Char) (style : Style)
  /-- Paints a base with the longest suffix that fits. -/
  | extensibleKeyword (base : Mark) (suffixes : List Mark) (style : Style)
  /-- Paints names behind a sign. -/
  | signedVariable (sign : Char) (ends exceptions : List Char)
  /-- Paints single bytes. -/
  | marks (bytes : List UInt8) (style : Style)
  /-- Maps heredocs. -/
  | heredocs
  /-- Maps quote operators. -/
  | quoteOperators
  /-- Maps tags and their attribute values. -/
  | tags
  /-- Hands every region between two tags to an embedded language. For an element the start tag
  must end like one, and the region lies between the tags; otherwise it includes them. -/
  | innerSection (startTag endTag : Mark) (element : Bool)
      (name : String) (dialect : Dialect) (body : List Primitive)
  /-- Hands the whole scope to an embedded language. -/
  | embedScope (name : String) (dialect : Dialect) (body : List Primitive)
  /-- Chooses by whether the scope contains a mark. -/
  | ifContains (needle : Mark) (yes no : List Primitive)
deriving Inhabited

/-- The strategy by which a language is lexed. -/
structure Profile where
  /-- The short name, which also tags embedded sections. -/
  name : String
  /-- The rules for single candidates. -/
  dialect : Dialect
  /-- The steps of a pass, in order. -/
  program : List Primitive
deriving Inhabited

/-- A profile as it is shown in diagnostics. -/
def Profile.label (p : Profile) : String :=
  "LanguageProfile(" ++ p.name ++ ")"

namespace Primitive

/-- Paints parentheses and square brackets. -/
def brackets : Primitive :=
  .marks (mark "()[]") .bracket

/-- Paints curly braces. -/
def braces : Primitive :=
  .marks (mark "\x7b\x7d") .brace

/-- Hands every region between two tags to a profile. -/
def inner (startTag endTag : String) (element : Bool) (profile : Profile) : Primitive :=
  .innerSection (mark startTag) (mark endTag) element profile.name profile.dialect profile.program

/-- Hands the whole scope to a profile. -/
def embed (profile : Profile) : Primitive :=
  .embedScope profile.name profile.dialect profile.program

end Primitive

end LexPaint
