import LexPaint.Language
/-!
# Language detection

The language of a file follows from its extension, unless an override was set for its path. Unknown
and missing extensions give plain text.

## Main definitions

* `Path.fileName?`, `Path.extension?`: the last component of a path and its extension.
* `Detector`: overrides by path; `Detector.detect`.
-/

namespace LexPaint

namespace Path

/-- The components of a path that name something: neither empty nor a single dot. -/
def components (path : String) : List String :=
  (path.splitOn "/").filter (fun part => part != "" && part != ".")

/-- The last component of a path, unless the path ends in its parent or names nothing. -/
def fileName? (path : String) : Option String :=
  (components path).getLast?.filter (fun part => part != "..")

/-- The part of a file's name behind its last dot. A name without a dot, or with its only dot in
front, has no extension. -/
def extension? (path : String) : Option String := do
  let name ← fileName? path
  let parts := name.splitOn "."
  if parts.length < 2 then
    none
  if parts.length = 2 && parts.head? == some "" then
    none
  parts.getLast?

end Path

/-- Languages set for single files, by path. -/
structure Detector where
  /-- The overrides, the latest first; each path at most once. -/
  overrides : List (String × Language)
deriving DecidableEq, Repr, Inhabited

namespace Detector

/-- A detector without overrides. -/
def new : Detector :=
  ⟨[]⟩

/-- The language of a file. An override wins, then the extension counts in any case. -/
def detect (d : Detector) (path : String) : Language :=
  match d.overrides.lookup path with
  | some l => l
  | none =>
    match Path.extension? path with
    | some ext => (Language.extensionTable.lookup (Language.lower ext)).getD .plainText
    | none => .plainText

/-- Sets the language of one file. -/
def set (d : Detector) (path : String) (l : Language) : Detector :=
  ⟨(path, l) :: d.overrides.filter (fun entry => entry.1 != path)⟩

/-- Removes an override and answers with it. -/
def remove (d : Detector) (path : String) : Option Language × Detector :=
  (d.overrides.lookup path, ⟨d.overrides.filter (fun entry => entry.1 != path)⟩)

end Detector

end LexPaint
