/-!
# Styles

The lexical roles that are painted over a text. What a role looks like is a matter of the theme.

## Main definitions

* `Style`: the roles.
* `Style.all`, `Style.name`, `Style.ofName?`: the roles in order, and their written names.
-/

namespace LexPaint

/-- The lexical role painted over a range of text. -/
inductive Style where
  | plain
  | keyword
  | bracket
  | brace
  | variableName
  | string
  | comment
  | tagName
  | attributeName
  | attributeValue
  /-- Marks that open or close an embedded section. -/
  | embeddedMarker
deriving DecidableEq, Repr, Inhabited

namespace Style

/-- Every style, in display order. -/
def all : List Style :=
  [plain, keyword, bracket, brace, variableName, string, comment, tagName, attributeName,
    attributeValue, embeddedMarker]

/-- The name of a style in a configuration. -/
def name : Style → String
  | plain => "plain"
  | keyword => "keyword"
  | bracket => "bracket"
  | brace => "brace"
  | variableName => "variable"
  | string => "string"
  | comment => "comment"
  | tagName => "tag_name"
  | attributeName => "attribute"
  | attributeValue => "attribute_value"
  | embeddedMarker => "embedded_marker"

/-- The style with a given name. -/
def ofName? (s : String) : Option Style :=
  all.find? (fun style => style.name == s)

/-- The name of a style names this style. -/
theorem ofName?_name (style : Style) : ofName? style.name = some style := by
  cases style <;> decide

end Style

end LexPaint
