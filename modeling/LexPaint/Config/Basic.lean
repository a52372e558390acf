import LexPaint.Language
import LexPaint.Theme
/-!
# Configurations

Which languages are highlighted, whether edits are served locally, and which styles are recolored.
Nonsensical values are corrected with a notice rather than rejected.

## Main definitions

* `Config`: the settings; `Config.standard` are those in use when nothing is said.
* `Config.validate`: the corrections, with a notice for each.
* `Config.isLanguageEnabled`, `Config.theme`: what follows from the settings.
-/

namespace LexPaint

/-- The settings of the highlighting engine. -/
@[ext]
structure Config where
  /-- The master switch; when off, every document is plain text. -/
  enabled : Bool
  /-- When off, every edit is served by a full pass. -/
  incremental : Bool
  /-- The languages treated as plain text. -/
  disabledLanguages : List Language
  /-- The colors on top of the standard theme. -/
  colors : Overrides
deriving DecidableEq

/-- What the engine remarks about a configuration. -/
inductive Notice where
  /-- A language was listed more than once. -/
  | repeatedLanguages
  /-- Plain text was listed among the languages to disable. -/
  | plainTextDisabled
  /-- Plain text was given a color. -/
  | plainTextColored
  /-- Something was corrected. -/
  | corrected
  /-- The file at this path was empty. -/
  | emptyFile (path : String)
deriving DecidableEq, Repr, Inhabited

namespace Notice

/-- Whether the notice warns, or only informs. -/
def isWarning : Notice → Bool
  | corrected => false
  | _ => true

/-- The wording of a notice. -/
def message : Notice → String
  | repeatedLanguages => "Duplicate entries in disabled_languages, ignoring repeats"
  | plainTextDisabled => "Plain text is never highlighted, dropping it from disabled_languages"
  | plainTextColored => "Plain text keeps the terminal color, ignoring its override"
  | corrected => "Highlighting configuration validated with corrections"
  | emptyFile path => "Config file " ++ path ++ " is empty, using defaults"

end Notice

namespace Config

/-- The settings in use when nothing is said. -/
def standard : Config where
  enabled := true
  incremental := true
  disabledLanguages := []
  colors := .none

instance : Inhabited Config := ⟨standard⟩

/-- A list without the entries that occur earlier in it or in `seen`. -/
def firstOccurrences (seen : List Language) : List Language → List Language
  | [] => []
  | l :: rest =>
    if seen.contains l then firstOccurrences seen rest
    else l :: firstOccurrences (l :: seen) rest

/-- The corrected languages: each once, and plain text not at all. -/
def correctedLanguages (ls : List Language) : List Language :=
  (firstOccurrences [] ls).filter (fun l => l != .plainText)

/-- The corrected settings. -/
def corrected (c : Config) : Config :=
  { c with
    disabledLanguages := correctedLanguages c.disabledLanguages
    colors := c.colors.erase .plain }

/-- What there is to correct, in order. -/
def issues (c : Config) : List Notice :=
  let once := firstOccurrences [] c.disabledLanguages
  (if once.length != c.disabledLanguages.length then [.repeatedLanguages] else []) ++
  (if once.contains .plainText then [.plainTextDisabled] else []) ++
  (if c.colors.contains .plain then [.plainTextColored] else [])

/-- Corrects nonsensical values, with a notice for each correction and one at the end. -/
def validate (c : Config) : Config × List Notice :=
  (c.corrected, if c.issues.isEmpty then [] else c.issues ++ [.corrected])

/-- Whether documents in a language are highlighted. -/
def isLanguageEnabled (c : Config) (l : Language) : Bool :=
  c.enabled && l.isHighlighted && !c.disabledLanguages.contains l

/-- The standard theme with the colors of the configuration. -/
def theme (c : Config) : Theme :=
  Theme.standard.load c.colors

/-- The profile that documents in a language are lexed by under the configuration. -/
def profile? (c : Config) (l : Language) : Option Profile :=
  if c.isLanguageEnabled l then l.profile? else none

end Config

end LexPaint
