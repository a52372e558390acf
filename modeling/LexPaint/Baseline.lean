import LexPaint.Measurement
import LexPaint.Sample
import LexPaint.Session
/-!
# Baseline runs

A baseline run highlights a sample document, then types and deletes one character in the middle of
every so many lines, and records every pass. The run is made of single requests to a session, so
that whoever holds a clock can time each of them.

## Main definitions

* `Baseline.start`, `Baseline.type`, `Baseline.delete`: the requests.
* `Baseline.editedLines`: the lines to type into.
* `Baseline.measure`: the passes of a run over several languages.
-/

namespace LexPaint.Baseline

/-- Highlights the sample document of a language. -/
def start (l : Language) (lines : Nat) : Checked Session :=
  (Session.new l .standard (l.sample lines)).highlight

/-- Types one character. -/
def type (s : Session) (pos : Nat) : Checked (PassKind × Session) := do
  let served ← s.insert pos (Text.ofString "x")
  return (served.kind, served.session)

/-- Deletes one character. -/
def delete (s : Session) (pos : Nat) : Checked (PassKind × Session) := do
  let served ← s.remove pos 1
  return (served.kind, served.session)

/-- The last boundary at or before an offset. -/
def boundaryBefore (t : Text) (pos : Nat) : Nat :=
  if t.isBoundary pos then pos else t.prevBoundary pos

/-- The middle of the line that starts at an offset; of a last line without an end, its start. -/
def lineMiddle (t : Text) (start : Nat) : Nat :=
  match t.findByte (· == newline) start t.size with
  | some stop => boundaryBefore t (start + (stop - start) / 2)
  | none => start

/-- The starts of the lines that hold anything, from an offset on. -/
def lineStartsFrom (t : Text) (pos : Nat) : List Nat :=
  if pos < t.size then
    match t.findByte (· == newline) pos t.size with
    | some stop => pos :: lineStartsFrom t (max stop pos + 1)
    | none => [pos]
  else []
termination_by t.size - pos

/-- Every `stride`-th entry of a list, starting with the first; `skip` entries are left out. -/
def everyNth {α : Type} (stride : Nat) : Nat → List α → List α
  | _, [] => []
  | 0, a :: rest => a :: everyNth stride (stride - 1) rest
  | skip + 1, _ :: rest => everyNth stride skip rest

/-- The starts of the lines to type into. -/
def editedLines (t : Text) (stride : Nat) : List Nat :=
  everyNth (max stride 1) 0 (lineStartsFrom t 0)

/-- Types and deletes a character in the middle of a line, and records both passes. -/
def measureLine (state : Session × Measurement) (lineStart : Nat) :
    Checked (Session × Measurement) := do
  let (s, m) := state
  let pos := lineMiddle s.doc.text lineStart
  let (typed, s) ← type s pos
  let m ← m.record typed s.doc.size 0
  let (deleted, s) ← delete s pos
  let m ← m.record deleted s.doc.size 0
  return (s, m)

/-- Adds the passes of a run over one language. -/
def measureLanguage (lines stride : Nat) (m : Measurement) (l : Language) :
    Checked Measurement := do
  let s ← start l lines
  let m ← m.record .full s.doc.size 0
  let (_, m) ← (editedLines s.doc.text stride).foldlM measureLine (s, m)
  return m

/-- The passes of a run over several languages, without their times. -/
def measure (ls : List Language) (lines stride : Nat) : Checked Measurement :=
  ls.foldlM (measureLanguage lines stride) .empty

end LexPaint.Baseline
