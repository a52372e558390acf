import LexPaint.Profile.CStyle
import LexPaint.Profile.Css
import LexPaint.Profile.PhpCode
/-!
# Markup languages

XML is comments and tags. HTML embeds PHP sections, scripts and style sheets besides. A PHP
document is HTML once it contains `<?` anywhere, and PHP code from end to end otherwise.

## Main definitions

* `Primitive.markup`: the steps of XML and of HTML.
* `Profile.xml`, `Profile.html`, `Profile.php`.
-/

namespace LexPaint

namespace Primitive

/-- The comments of markup. -/
def markupComments : Primitive :=
  .blockComments (mark "<!--") (mark "-->") false

/-- The steps of markup, with embedded languages for HTML: PHP sections first, then comments,
scripts and style sheets, and the tags last. -/
def markup (html : Bool) : List Primitive :=
  if html then
    [inner "<?php" "?>" false .phpCode, inner "<?=" "?>" false .phpCode,
      markupComments,
      inner "<script" "</script" true .javascript, inner "<style" "</style" true .css,
      .tags]
  else [markupComments, .tags]

end Primitive

namespace Profile

/-- XML. -/
def xml : Profile where
  name := "xml"
  dialect := .permissive
  program := Primitive.markup false

/-- HTML with embedded scripts, style sheets and PHP. -/
def html : Profile where
  name := "html"
  dialect := .permissive
  program := Primitive.markup true

/-- PHP documents: markup with embedded code if `<?` appears anywhere, plain code otherwise. -/
def php : Profile where
  name := "php"
  dialect := .permissive
  program := [.ifContains (mark "<?") (Primitive.markup true) [.embed .phpCode]]

end Profile

end LexPaint
