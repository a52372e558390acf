import LexPaint.Config.Reader
import LexPaint.Detector
import LexPaint.Highlighter
/-!
# The highlighting service

The service makes highlighters for files. It knows the settings they share, the languages set for
single files, and the metrics of the documents that were closed.

## Main definitions

* `Service`: settings, overrides and totals.
* `Service.createHighlighter`: a highlighter for a file.
* `Service.render`: a text with terminal colors, highlighted as the file it comes from.
-/

namespace LexPaint

/-- The highlighting service. -/
structure Service where
  /-- The languages set for single files. -/
  detector : Detector
  /-- The settings that highlighters share. -/
  config : Config
  /-- The metrics of closed documents. -/
  totals : Metrics
deriving Inhabited

namespace Service

/-- A service under a configuration. -/
def new (config : Config) : Service :=
  ⟨.new, config, .zero⟩

/-- A highlighter for a file. -/
def createHighlighter (s : Service) (path : String) : Highlighter :=
  .new (s.detector.detect path) s.config

/-- Sets the language of one file. -/
def setOverride (s : Service) (path : String) (l : Language) : Service :=
  { s with detector := s.detector.set path l }

/-- Removes the language set for a file and answers with it. -/
def removeOverride (s : Service) (path : String) : Option Language × Service :=
  let (previous, detector) := s.detector.remove path
  (previous, { s with detector })

/-- Switches highlighting on or off for the highlighters made from now on. -/
def setEnabled (s : Service) (enabled : Bool) : Service :=
  { s with config := { s.config with enabled } }

/-- Whether highlighters made from now on highlight anything. -/
def isEnabled (s : Service) : Bool :=
  s.config.enabled

/-- The colors in use. -/
def theme (s : Service) : Theme :=
  s.config.theme

/-- Adds the metrics of a document that is closed. -/
def recordMetrics (s : Service) (h : Highlighter) : Checked Service := do
  return { s with totals := ← s.totals.absorb h.metrics }

/-- Starts the totals over. -/
def resetMetrics (s : Service) : Service :=
  { s with totals := .zero }

/-- The languages that can be highlighted, in display order. -/
def supportedLanguages : List Language :=
  Language.all.filter Language.isHighlighted

/-- A text with terminal colors, highlighted as a file with the given path. -/
def render (s : Service) (path : String) (text : Text) : Checked Text := do
  let (_, doc) ← (s.createHighlighter path).highlightDocument (.new text)
  doc.renderAnsi s.theme

end Service

/-- What the command line makes of a file: its text with terminal colors, or nothing if the file
or the configuration cannot be read. -/
def renderFile (config : Except ConfigError Config) (path : String)
    (contents : Option ByteArray) : Option Text := do
  let config ← config.toOption
  let text ← contents.bind String.fromUTF8?
  ((Service.new config).render path (Text.ofString text)).toOption

end LexPaint
