import LexPaint.Config.Basic
import LexPaint.Json.Reader
/-!
# Reading configurations

A configuration is a JSON object with any of the four settings, or a list of them in order. What is
missing keeps its standard value and unknown keys are skipped, but no setting may be given twice.

## Main definitions

* `Config.read`: a configuration as written, before validation.
* `Config.parse`: a configuration with its corrections.
* `Config.load`: the contents of a configuration file.
-/

namespace LexPaint

/-- Why no configuration could be had. -/
inductive ConfigError where
  /-- The file could not be read as text. -/
  | unreadable
  /-- The text is no configuration. -/
  | invalid (error : ReadError)
deriving DecidableEq, Repr, Inhabited

namespace Config

/-- The settings that a configuration can name. -/
inductive Field where
  | enabled
  | incremental
  | disabledLanguages
  | colors
deriving DecidableEq, Repr, Inhabited

/-- The key of a setting. -/
def Field.key : Field → String
  | enabled => "enabled"
  | incremental => "incremental"
  | disabledLanguages => "disabled_languages"
  | colors => "colors"

/-- The setting with a given key. -/
def Field.ofKey? (s : String) : Option Field :=
  [enabled, incremental, disabledLanguages, colors].find? (fun field => field.key == s)

/-- The settings read so far. -/
structure Partial where
  /-- The master switch. -/
  enabled : Option Bool
  /-- Whether edits are served locally. -/
  incremental : Option Bool
  /-- The languages treated as plain text. -/
  disabledLanguages : Option (List Language)
  /-- The colors on top of the standard theme. -/
  colors : Option (List (Style × Color))

namespace Partial

/-- Nothing read yet. -/
def empty : Partial :=
  ⟨none, none, none, none⟩

/-- Whether a setting was read. -/
def has (p : Partial) : Field → Bool
  | .enabled => p.enabled.isSome
  | .incremental => p.incremental.isSome
  | .disabledLanguages => p.disabledLanguages.isSome
  | .colors => p.colors.isSome

/-- The settings read, with standard values for the others. Of two colors for one style the later
counts. -/
def complete (p : Partial) : Config where
  enabled := p.enabled.getD standard.enabled
  incremental := p.incremental.getD standard.incremental
  disabledLanguages := p.disabledLanguages.getD standard.disabledLanguages
  colors := (p.colors.map Overrides.ofList).getD standard.colors

end Partial

/-- Takes the languages to disable off. -/
def readLanguages : Json.Reader (List Language) :=
  Json.readList (Json.readName Language.ofTag?)

/-- Takes the colors of styles off. -/
def readColors : Json.Reader (List (Style × Color)) :=
  Json.readObject (Json.readNamed Style.ofName?) (Json.readName Color.ofName?)

/-- Takes the value of a setting off. -/
def readField (p : Partial) (field : Field) : Json.Reader Partial := fun cs =>
  match field with
  | .enabled => do
    let (enabled, cs) ← Json.readBool cs
    return ({ p with enabled }, cs)
  | .incremental => do
    let (incremental, cs) ← Json.readBool cs
    return ({ p with incremental }, cs)
  | .disabledLanguages => do
    let (disabledLanguages, cs) ← readLanguages cs
    return ({ p with disabledLanguages }, cs)
  | .colors => do
    let (colors, cs) ← readColors cs
    return ({ p with colors }, cs)

/-- Takes one member of an object off, behind the opening quote of its key. -/
def readMember (p : Partial) : Json.Reader Partial := fun cs => do
  let (key, cs) ← Json.readChars cs
  match Field.ofKey? (String.ofList key) with
  | some field =>
    if p.has field then
      throw .mismatch
    readField p field (← Json.readToken ':' cs)
  | none => return (p, ← Json.skipValue (← Json.readToken ':' cs))

/-- Takes the members of an object off, behind its opening brace, in at most so many turns. -/
def readMembersIn : Nat → Bool → Partial → Json.Reader Partial
  | 0, _, _, _ => .error .ended
  | turns + 1, first, p, cs => do
    let (more, cs) ← Json.nextKey? first cs
    if more then
      let (p, cs) ← readMember p cs
      readMembersIn turns false p cs
    else return (p, cs)

/-- Takes the settings of a list off in order, behind its opening bracket. -/
def readPositions : List Field → Bool → Partial → Json.Reader Partial
  | [], _, p, cs => do
    let cs ← Json.readToken ']' cs
    return (p, cs)
  | field :: fields, first, p, cs => do
    let (more, cs) ← Json.nextElement? first cs
    if more then
      let (p, cs) ← readField p field cs
      readPositions fields false p cs
    else return (p, cs)

/-- Takes a configuration off. -/
def readConfig : Json.Reader Config := fun cs =>
  match Json.skipSpace cs with
  | [] => .error .ended
  | c :: rest =>
    if c = '{' then
      (readMembersIn (rest.length + 1) true .empty rest).map fun (p, rest) => (p.complete, rest)
    else if c = '[' then
      (readPositions [.enabled, .incremental, .disabledLanguages, .colors] true .empty rest).map
        fun (p, rest) => (p.complete, rest)
    else .error (Json.otherKind (c :: rest))

/-- Reads a text that is one configuration, as it is written. -/
def read (text : String) : Except ReadError Config := do
  let (c, rest) ← readConfig text.toList
  Json.expectEnd rest
  return c

/-- Reads a text that is one configuration, and corrects it. -/
def parse (text : String) : Except ReadError (Config × List Notice) := do
  return (← read text).validate

/-- Whether a text is nothing but white space. -/
def isBlankText (text : String) : Bool :=
  text.toList.all Unicode.isBlank

/-- The configuration in a file, given its path and its bytes if it exists. A blank file stands
for the standard configuration. -/
def load (path : String) (contents : Option ByteArray) :
    Except ConfigError (Config × List Notice) :=
  match contents.bind String.fromUTF8? with
  | none => .error .unreadable
  | some text =>
    if isBlankText text then .ok (standard, [.emptyFile path])
    else (parse text).mapError .invalid

end Config

end LexPaint
