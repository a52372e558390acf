import LexPaint.Config.Basic
/-!
# Writing configurations

A configuration is written as a JSON object, two spaces per level, with every setting in it. Empty
lists and objects stay on their line.

## Main definitions

* `Config.written`, `Config.toJson`: the text of a configuration.
-/

namespace LexPaint.Config

/-- A name between double quotes. None of the names needs an escape. -/
def quoted (name : String) : List Char :=
  '"' :: name.toList ++ ['"']

/-- A line break with so many spaces behind it. -/
def lineBreak (indent : Nat) : List Char :=
  '\n' :: List.replicate indent ' '

/-- Members between a bracket and its counterpart, each on a line of its own. -/
def block (opener closer : Char) (indent : Nat) : List (List Char) → List Char
  | [] => [opener, closer]
  | members =>
    let separator := ',' :: lineBreak (indent + 2)
    opener :: lineBreak (indent + 2) ++ separator.intercalate members ++ lineBreak indent ++
      [closer]

/-- A key with its value. -/
def member (key : String) (value : List Char) : List Char :=
  quoted key ++ ':' :: ' ' :: value

/-- A truth value. -/
def writtenBool (b : Bool) : List Char :=
  (if b then "true" else "false").toList

/-- The characters of a configuration's text. -/
def written (c : Config) : List Char :=
  block '{' '}' 0 [
    member "enabled" (writtenBool c.enabled),
    member "incremental" (writtenBool c.incremental),
    member "disabled_languages"
      (block '[' ']' 2 (c.disabledLanguages.map fun l => quoted l.tag)),
    member "colors"
      (block '{' '}' 2
        (c.colors.entries.map fun entry => member entry.1.name (quoted entry.2.name)))]

/-- The text of a configuration. -/
def toJson (c : Config) : String :=
  String.ofList c.written

end LexPaint.Config
