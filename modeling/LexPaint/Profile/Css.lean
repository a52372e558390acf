import LexPaint.Primitive
/-!
# Style sheets

CSS has block comments only. Most of its properties come in families that extend a base name, such
as `border` and `border-top-width`; the others are plain words in which a hyphen belongs to the
word.

## Main definitions

* `Profile.cssFamilies`, `Profile.cssWords`: the property names.
* `Profile.css`.
-/

namespace LexPaint

namespace Dialect

/-- Block comments between slashes and stars, and quotes that end with their line. -/
def css : Dialect :=
  { permissive with
    comments := some
      { lineMarks := []
        opener := mark "/*"
        closer := mark "*/"
        multilineQuotes := false
        textBlocks := false
        lineFilter := .everywhere } }

end Dialect

namespace Profile

/-- The suffixes that name the sides of a box. -/
def sides : List String :=
  ["-top", "-right", "-bottom", "-left"]

/-- Property families: a base name and the suffixes that extend it. -/
def cssFamilies : List (String × List String) :=
  [("border",
    ["-top-left-radius", "-top-right-radius", "-bottom-left-radius", "-bottom-right-radius",
     "-top-color", "-top-style", "-top-width", "-right-color", "-right-style", "-right-width",
     "-bottom-color", "-bottom-style", "-bottom-width", "-left-color", "-left-style",
     "-left-width", "-top", "-right", "-bottom", "-left", "-color", "-style", "-width", "-radius",
     "-collapse", "-spacing", "-image"]),
   ("margin", sides),
   ("padding", sides),
   ("font",
    ["-family", "-size", "-style", "-weight", "-variant"]),
   ("background",
    ["-attachment", "-clip", "-color", "-image", "-origin", "-position", "-repeat", "-size"]),
   ("text",
    ["-align", "-decoration", "-indent", "-overflow", "-shadow", "-transform"]),
   ("outline",
    ["-color", "-offset", "-style", "-width"]),
   ("flex",
    ["-basis", "-direction", "-flow", "-grow", "-shrink", "-wrap"]),
   ("grid",
    ["-template-columns", "-template-rows", "-template-areas", "-template", "-column-gap",
     "-row-gap", "-auto-flow", "-column", "-row", "-area", "-gap"])]

/-- The properties outside the families. -/
def cssWords : List String :=
  ["align-content", "align-items", "animation", "bottom", "box-shadow", "box-sizing", "clear",
   "color", "content", "cursor", "display", "float", "gap", "height", "justify-content", "left",
   "letter-spacing", "line-height", "list-style", "max-height", "max-width", "min-height",
   "min-width", "opacity", "overflow", "position", "right", "top", "transform", "transition",
   "vertical-align", "visibility", "white-space", "width", "word-spacing", "z-index"]

/-- CSS. -/
def css : Profile where
  name := "css"
  dialect := .css
  program :=
    [.quotes true, .blockComments (mark "/*") (mark "*/") true] ++
    cssFamilies.map (fun family =>
      .extensibleKeyword (mark family.1) (family.2.map mark) .keyword) ++
    [.keywords (cssWords.map mark) true ['-', '.', '#'] .keyword, .braces]

end Profile

end LexPaint
