import LexPaint.Config.Basic
import LexPaint.Metrics
/-!
# Highlighters

A highlighter serves the requests for one document. It turns the notification of an edit into a
section and a window and has the section repainted. It runs a full pass instead before the first
pass, when local passes are switched off, and when the notification does not fit the document.

## Main definitions

* `Highlighter`: the state of one document.
* `Highlighter.highlightDocument`, `Highlighter.highlightEdit`: the two requests.
* `Highlighter.setLanguage`: changing the language, which forgets the last pass.

## Implementation notes

A request counts as instantaneous in the metrics; whoever holds a clock can record its passes in
metrics of their own.
-/

namespace LexPaint

/-- The state of one document. -/
structure Highlighter where
  /-- The language of the document. -/
  language : Language
  /-- The profile in use, none if the document is plain text. -/
  profile : Option Profile
  /-- What the last pass has found. -/
  painter : Painter
  /-- The settings. -/
  config : Config
  /-- The length of the document after the last pass, none before the first one. -/
  lastLength : Option Nat
  /-- The passes so far. -/
  metrics : Metrics
deriving Inhabited

/-- Why an edit was not served locally although it could have been. -/
inductive Fallback where
  /-- The notification does not fit the document. -/
  | notification
  /-- The edit does not fit its section. -/
  | section
deriving DecidableEq, Repr, Inhabited

/-- The outcome of a request. -/
structure Served where
  /-- How the request was served. -/
  kind : PassKind
  /-- Why it was not served locally, if that is worth a warning. -/
  fallback : Option Fallback
  /-- The highlighter after the request. -/
  highlighter : Highlighter
  /-- The painted document. -/
  doc : Buffer
deriving Inhabited

namespace Highlighter

/-- A highlighter for a document in a language under a configuration. -/
def new (language : Language) (config : Config) : Highlighter :=
  ⟨language, config.profile? language, .new, config, none, .zero⟩

/-- Whether the document is highlighted at all. -/
def isEnabled (h : Highlighter) : Bool :=
  h.profile.isSome

/-- Changes the language; the next request is a full pass. -/
def setLanguage (h : Highlighter) (language : Language) : Highlighter :=
  { h with
    language
    profile := h.config.profile? language
    painter := h.painter.clearHistory
    lastLength := none }

/-- Counts a served request and remembers the length of the document. -/
def finish (h : Highlighter) (kind : PassKind) (length : Nat) : Checked Highlighter := do
  return { h with metrics := ← h.metrics.record kind 0 length, lastLength := some length }

/-- Lexes and paints the whole document. -/
def highlightDocument (h : Highlighter) (doc : Buffer) : Checked (Highlighter × Buffer) := do
  let length := doc.size
  match h.profile with
  | some profile =>
    let (painter, doc) ← h.painter.full profile doc
    return (← { h with painter }.finish .full length, doc)
  | none => return (← h.finish .full length, doc.clear 0 length)

/-- Serves an edit by a full pass. -/
def fallBack (h : Highlighter) (doc : Buffer) (fallback : Option Fallback) : Checked Served := do
  let (h, doc) ← h.highlightDocument doc
  return ⟨.full, fallback, h, doc⟩

/-- Serves an edit of a document that had `oldLength` bytes after the last pass. -/
def serveEdit (h : Highlighter) (profile : Profile) (oldLength : Nat) (doc : Buffer)
    (n : Notification) : Checked Served := do
  match n.editedRange doc.text oldLength with
  | none => h.fallBack doc (some .notification)
  | some (first, last) =>
    let s ← Section.lines doc.text first last
    match EditWindow.ofSection? s oldLength doc.size with
    | none => h.fallBack doc (some .section)
    | some w =>
      let length := doc.size
      let (kind, painter, doc) ← h.painter.edit profile doc s w
      -- a repair is no fallback: the edit fitted the document
      return ⟨kind, none, ← { h with painter }.finish kind length, doc⟩

/-- Paints the document after the edit that a notification describes. -/
def highlightEdit (h : Highlighter) (doc : Buffer) (n : Notification) : Checked Served :=
  match h.profile, h.lastLength, h.config.incremental with
  | some profile, some oldLength, true => h.serveEdit profile oldLength doc n
  | _, _, _ => h.fallBack doc none

end Highlighter

end LexPaint
