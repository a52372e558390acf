import LexPaint.Profile.CStyle
import LexPaint.Profile.Css
import LexPaint.Profile.Markup
import LexPaint.Profile.Perl
import LexPaint.Profile.PhpCode
import LexPaint.Profile.Scripting
import LexPaint.Text.Search
/-!
# Languages

The languages of documents, with their names, tags and file extensions. A language is chosen once,
from a file's extension or from a tag; the contents are never looked at.

## Main definitions

* `Language`: the languages.
* `Language.ofTag?`: reading a tag, with its other spellings.
* `Language.profile?`: the profile that a language is lexed by.
* `Language.extensionTable`: the file extensions.
-/

namespace LexPaint

/-- The languages of documents. -/
inductive Language where
  | java
  | csharp
  | html
  | css
  | javascript
  | php
  | perl
  | python
  | xml
  | r
  /-- No highlighting. -/
  | plainText
deriving DecidableEq, Repr, Inhabited

namespace Language

/-- Every language, in display order. -/
def all : List Language :=
  [csharp, css, html, java, javascript, perl, php, python, r, xml, plainText]

/-- The name to show. -/
def displayName : Language → String
  | java => "Java"
  | csharp => "C#"
  | html => "HTML"
  | css => "CSS"
  | javascript => "JavaScript"
  | php => "PHP"
  | perl => "Perl"
  | python => "Python"
  | xml => "XML"
  | r => "R"
  | plainText => "Plain Text"

/-- The tag used in configurations. -/
def tag : Language → String
  | java => "java"
  | csharp => "csharp"
  | html => "html"
  | css => "css"
  | javascript => "javascript"
  | php => "php"
  | perl => "perl"
  | python => "python"
  | xml => "xml"
  | r => "r"
  | plainText => "plaintext"

/-- The usual file extension. -/
def primaryExtension : Language → String
  | java => "java"
  | csharp => "cs"
  | html => "html"
  | css => "css"
  | javascript => "js"
  | php => "php"
  | perl => "pl"
  | python => "py"
  | xml => "xml"
  | r => "r"
  | plainText => "txt"

/-- Whether documents in the language are highlighted at all. -/
def isHighlighted (l : Language) : Bool :=
  l != plainText

/-- The language with exactly this tag. -/
def ofTag? (s : String) : Option Language :=
  all.find? (fun l => l.tag == s)

/-- The spellings of a language besides its tag. -/
def aliases : Language → List String
  | csharp => ["c#", "cs"]
  | html => ["htm"]
  | javascript => ["js"]
  | perl => ["pl"]
  | python => ["py"]
  | plainText => ["text", "txt"]
  | _ => []

/-- The string with ASCII capitals made small. -/
def lower (s : String) : String :=
  String.ofList (s.toList.map Char.toLower)

/-- The string without white space at its ends. -/
def trim (s : String) : String :=
  String.ofList
    ((s.toList.dropWhile Unicode.isBlank).reverse.dropWhile Unicode.isBlank).reverse

/-- The language that a tag names, in any case and between white space. -/
def parse? (s : String) : Option Language :=
  let name := lower (trim s)
  all.find? (fun l => l.tag == name || l.aliases.contains name)

/-- The wording of the complaint about a tag that names no language. -/
def unknownMessage (s : String) : String :=
  "unknown language tag \x60" ++ s ++ "\x60"

/-- The profile that documents in the language are lexed by. -/
def profile? : Language → Option Profile
  | java => some .java
  | csharp => some .csharp
  | html => some .html
  | css => some .css
  | javascript => some .javascript
  | php => some .php
  | perl => some .perl
  | python => some .python
  | xml => some .xml
  | r => some .r
  | plainText => none

/-- The known file extensions with their languages, in alphabetical order. -/
def extensionTable : List (String × Language) :=
  [("cgi", perl), ("cjs", javascript), ("cs", csharp), ("css", css), ("htm", html),
    ("html", html), ("java", java), ("js", javascript), ("mjs", javascript), ("php", php),
    ("phtml", php), ("pl", perl), ("pm", perl), ("py", python), ("pyw", python), ("r", r),
    ("svg", xml), ("text", plainText), ("txt", plainText), ("xhtml", html), ("xml", xml),
    ("xsd", xml), ("xsl", xml)]

/-- The file extensions of a language, in alphabetical order. -/
def extensions (l : Language) : List String :=
  (extensionTable.filter (fun entry => entry.2 == l)).map Prod.fst

/-! ### First facts -/

/-- The tag of a language names this language. -/
theorem ofTag?_tag (l : Language) : ofTag? l.tag = some l := by
  cases l <;> decide

end Language

end LexPaint
